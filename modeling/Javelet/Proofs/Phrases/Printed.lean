import Javelet.Proofs.Phrases.Jumps
import Javelet.Proofs.Syntax.Printed
import Javelet.Proofs.Token.RoundTrip

/-!
# Parsed trees are told by what is printed

The names in a tree that is read from a source text are words: each of them is the text of an
identifier, or the name of a primitive type. So a tree that is read can be told from what is
printed, up to the marks of its nodes.
-/
namespace Javelet

open Syntax Grammar

/-! ## Words in printed trees -/

theorem not_mem_wordEnds_of_isWordPart {c : Char} (h : Text.isWordPart c = true) :
    c ∉ wordEnds := by
  have hall : ∀ c ∈ wordEnds, Text.isWordPart c = false :=
    List.all_iff_forall_prop.1 (by decide +kernel)
  intro hc
  rw [hall c hc] at h
  cases h

/-- The identifiers among tokens are words. -/
def NamesAreWords (ts : List Token) : Prop := ∀ t ∈ ts, t.kind = .identifier → IsWord t.text

theorem NamesAreWords.subset {ts us : List Token} (h : NamesAreWords ts) (hus : us ⊆ ts) :
    NamesAreWords us := fun t ht => h t (hus ht)

@[simp] theorem namesAreWords_nil : NamesAreWords [] := nofun

@[simp] theorem namesAreWords_cons {t : Token} {ts : List Token} :
    NamesAreWords (t :: ts) ↔ (t.kind = .identifier → IsWord t.text) ∧ NamesAreWords ts :=
  List.forall_mem_cons

@[simp] theorem namesAreWords_append {ts us : List Token} :
    NamesAreWords (ts ++ us) ↔ NamesAreWords ts ∧ NamesAreWords us :=
  List.forall_mem_append

theorem namesAreWords_tokenize {source : String} {ts : List Token} (h : tokenize source = .ok ts) :
    NamesAreWords ts := by
  refine forall_mem_tokenize (fun c rest t ht hkind => ?_) h
  obtain ⟨hne, hparts, -⟩ := Lexeme.identifier_of_scan ht hkind
  exact ⟨hne, fun d hd => not_mem_wordEnds_of_isWordPart (hparts d hd)⟩

theorem isWord_repr (n : Nat) : IsWord n.repr := by
  have hall : ∀ c ∈ wordEnds, c.isDigit = false := List.all_iff_forall_prop.1 (by decide)
  refine ⟨Nat.repr_ne_empty, fun c hc hend => ?_⟩
  rw [Nat.toList_repr] at hc
  have hdigit := Nat.isDigit_of_mem_toDigits (by decide) (by decide) hc
  rw [hall c hend] at hdigit
  cases hdigit

theorem isWord_int32Text (value : Int32) : IsWord (int32Text value) := by
  unfold int32Text
  split
  · exact isWord_repr _
  · refine ⟨by simp, ?_⟩
    rw [String.toList_append, List.forall_mem_append]
    exact ⟨IsWord.apart (by decide), (isWord_repr _).apart⟩

theorem BinaryOp.isWord_text (op : BinaryOp) : IsWord op.text := by
  have hall : ∀ op ∈ all, IsWord op.text := by decide
  exact hall op op.mem_all

theorem AssignOp.isWord_text (op : AssignOp) : IsWord op.text := by
  cases op with
  | plain => decide
  | compound a => cases a <;> decide

theorem Literal.form_plain (value : Literal) : value.form.Plain := by
  cases value with
  | int value => simp +decide [form, isWord_int32Text]
  | char value => simp +decide [form]
  | boolean value => cases value <;> simp +decide [form]
  | string value => simp +decide [form]
  | null => simp +decide [form]

/-! ## Trees with plain forms -/

theorem exprForms_eq (es : List Expr) : exprForms es = es.map Expr.form := by
  induction es with
  | nil => rfl
  | cons e es ih => rw [exprForms, ih, List.map_cons]

/-- The names in the head of a chain are words, those in its arguments too. -/
def Head.Plain : Head → Prop
  | this _ => True
  | name _ text => IsWord text
  | call _ text args => IsWord text ∧ ∀ e ∈ args, e.form.Plain

def Link.Plain : Link → Prop
  | field _ name => IsWord name
  | call _ name args => IsWord name ∧ ∀ e ∈ args, e.form.Plain
  | index _ e => e.form.Plain

theorem linkForm?_plain (ls : List Link) :
    (∀ f ∈ linkForm? ls, f.Plain) ↔ ∀ l ∈ ls, l.Plain := by
  induction ls with
  | nil => simp [linkForm?]
  | cons l ls ih =>
    rw [List.forall_mem_cons, ← ih]
    cases l with
    | _ => simp +decide [linkForm?, Link.Plain, exprForms_eq, and_assoc]

theorem Chain.form_plain {head : Head} {links : List Link} :
    (Chain.mk head links).form.Plain ↔ head.Plain ∧ ∀ l ∈ links, l.Plain := by
  rw [← linkForm?_plain]
  cases head with
  | _ => simp +decide [Chain.form, Head.Plain, exprForms_eq, and_assoc]

theorem Expr.plain_literal {p : Position} {value : Literal} : (literal p value).form.Plain :=
  value.form_plain

theorem Expr.plain_binary {op : BinaryOp} {left right : Expr} :
    (binary op left right).form.Plain ↔ left.form.Plain ∧ right.form.Plain := by
  simp +decide [form, op.isWord_text]

theorem Expr.plain_newObject {p : Position} {className : String} {args : List Expr} :
    (newObject p className args).form.Plain ↔ IsWord className ∧ ∀ e ∈ args, e.form.Plain := by
  simp +decide [form, exprForms_eq]

theorem Expr.plain_newArray {p : Position} {element : String} {length : Expr} :
    (newArray p element length).form.Plain ↔ IsWord element ∧ length.form.Plain := by
  simp +decide [form]

theorem Head.Plain.operands {h : Head} (hp : h.Plain) : ∀ e ∈ h.operands, e.form.Plain := by
  cases h with
  | this p => exact nofun
  | name p text => exact nofun
  | call p text args => exact hp.2

theorem Link.Plain.operands {l : Link} (hp : l.Plain) : ∀ e ∈ l.operands, e.form.Plain := by
  cases l with
  | field p name => exact nofun
  | call p name args => exact hp.2
  | index p e => exact List.forall_mem_singleton.2 hp

theorem Chain.plain_operands {c : Chain} (hp : c.form.Plain) : ∀ e ∈ c.operands, e.form.Plain := by
  obtain ⟨head, links⟩ := c
  obtain ⟨hhead, hlinks⟩ := Chain.form_plain.1 hp
  intro e he
  rcases List.mem_append.1 he with he | he
  · exact hhead.operands e he
  · obtain ⟨l, hl, he⟩ := List.mem_flatMap.1 he
    exact (hlinks l hl).operands e he

theorem statementForms_eq (ss : List Statement) : statementForms ss = ss.map Statement.form := by
  induction ss with
  | nil => rfl
  | cons s ss ih => rw [statementForms, ih, List.map_cons]

theorem Block.itemForms_eq (b : Block) : b.itemForms = b.statements.map Statement.form := by
  obtain ⟨id, p, ss⟩ := b
  exact statementForms_eq ss

theorem Variable.form_plain {v : Variable} :
    v.form.Plain ↔ IsWord v.name ∧ IsWord v.type.name ∧ ∀ e ∈ v.value, e.form.Plain := by
  simp +decide [form, Ty.form]

theorem Assignment.forms_plain {a : Assignment} :
    (∀ f ∈ a.forms, f.Plain) ↔ a.target.form.Plain ∧ a.value.form.Plain := by
  simp +decide [forms, a.op.isWord_text]

theorem Action.plain_assignment {a : Assignment} :
    (assignment a).form.Plain ↔ a.target.form.Plain ∧ a.value.form.Plain := by
  simp +decide only [form, Form.plain_node, true_and, Assignment.forms_plain]

theorem Action.plain_call {c : Chain} : (call c).form.Plain ↔ c.form.Plain := by
  simp +decide [form]

theorem Jump.plain_return {value : Option Expr} :
    (return_ value).form.Plain ↔ ∀ e ∈ value, e.form.Plain := by
  simp +decide [form]

theorem Statement.plain_jump {p : Position} {j : Jump} :
    (jump p j).form.Plain ↔ j.form.Plain := by rw [form]

theorem Statement.plain_action {a : Action} : (action a).form.Plain ↔ a.form.Plain := by rw [form]

theorem Statement.plain_declaration {v : Variable} :
    (declaration v).form.Plain ↔ v.form.Plain := by rw [form]

theorem Statement.plain_block {b : Block} :
    (block b).form.Plain ↔ ∀ s ∈ b.statements, s.form.Plain := by
  obtain ⟨id, p, ss⟩ := b
  simp +decide [form, Block.form, statementForms_eq, Block.statements]

theorem Statement.plain_conditional {p : Position} {e : Expr} {body : Statement}
    {otherwise : Option Statement} : (conditional p e body otherwise).form.Plain ↔
      e.form.Plain ∧ body.form.Plain ∧ ∀ s ∈ otherwise, s.form.Plain := by
  cases otherwise with
  | _ => simp +decide [form]

theorem Statement.plain_whileLoop {p : Position} {e : Expr} {body : Statement} :
    (whileLoop p e body).form.Plain ↔ e.form.Plain ∧ body.form.Plain := by
  simp +decide [form]

theorem ForInit.forms_plain {i : ForInit} :
    (∀ f ∈ i.forms, f.Plain) ↔ i.asStatement.form.Plain := by
  cases i with
  | declaration v => simp +decide [forms, asStatement, Statement.form]
  | assignment a => simp +decide [forms, asStatement, Statement.form, Action.form]

theorem Statement.plain_forLoop {p : Position} {id : NodeId} {init : Option ForInit}
    {e : Option Expr} {update : Option Action} {body : Statement} :
    (forLoop p id init e update body).form.Plain ↔ (∀ i ∈ init, i.asStatement.form.Plain) ∧
      (∀ e' ∈ e, e'.form.Plain) ∧ (∀ a ∈ update, a.form.Plain) ∧ body.form.Plain := by
  simp only [← ForInit.forms_plain]
  have hinit : (∀ f ∈ (init.toList.map ForInit.forms).flatten, f.Plain) ↔
      ∀ i ∈ init, ∀ f ∈ i.forms, f.Plain := by
    cases init with
    | _ => simp
  have hcondition : (∀ f ∈ (e.toList.map fun e => [.plain ":condition", e.form]).flatten,
      f.Plain) ↔ ∀ e' ∈ e, e'.form.Plain := by
    cases e with
    | _ => simp +decide
  have hupdate : (∀ f ∈ (update.toList.map fun a => [.plain ":update", a.form]).flatten,
      f.Plain) ↔ ∀ a ∈ update, a.form.Plain := by
    cases update with
    | _ => simp +decide
  rw [← hinit, ← hcondition, ← hupdate]
  simp +decide only [form, clauses, List.flatten_append, Form.plain_node, List.forall_mem_append,
    List.flatten_singleton, List.forall_mem_singleton, Form.plain_word, and_assoc, true_and]

theorem caseForms_plain {cs : List Case} :
    (∀ f ∈ caseForms cs, f.Plain) ↔ ∀ c ∈ cs, ∀ s ∈ c.body.statements, s.form.Plain := by
  induction cs with
  | nil => simp [caseForms]
  | cons c cs ih =>
    obtain ⟨p, q, label, body⟩ := c
    rw [List.forall_mem_cons, ← ih]
    simp +decide [caseForms, label.form_plain, Block.itemForms_eq, Case.body]

theorem Statement.plain_switch {p : Position} {id : NodeId} {e : Expr} {cases : List Case}
    {default_ : Option Block} : (switch p id e cases default_).form.Plain ↔ e.form.Plain ∧
      (∀ c ∈ cases, ∀ s ∈ (Case.body c).statements, s.form.Plain) ∧
      ∀ b ∈ default_, ∀ s ∈ Block.statements b, s.form.Plain := by
  rw [← caseForms_plain]
  cases default_ with
  | _ => simp +decide [form, Block.itemForms_eq]

/-! ## Phrases of words spell trees with plain forms -/

namespace Grammar

variable {ts : List Token}

theorem SpellsTypeName.isWord {t : Token} {name : String} (h : SpellsTypeName t name)
    (ht : t.kind = .identifier → IsWord t.text) : IsWord name := by
  cases h with
  | identifier hkind => exact ht hkind
  | int | char | boolean => decide

mutual

theorem Spells.plain {level : Level} {ts : List Token} {e : Expr} (h : Spells level ts e)
    (hts : NamesAreWords ts) : e.form.Plain := by
  match h with
  | .operand h => exact h.plain hts
  | .join _ hl _ _ hr =>
    simp only [namesAreWords_append, namesAreWords_cons] at hts
    exact Expr.plain_binary.2 ⟨hl.plain hts.1, hr.plain hts.2.2⟩
  | .relate hl _ _ hr =>
    simp only [namesAreWords_append, namesAreWords_cons] at hts
    exact Expr.plain_binary.2 ⟨hl.plain hts.1, hr.plain hts.2.2⟩

theorem SpellsOperand.plain {level : Level} {ts : List Token} {e : Expr}
    (h : SpellsOperand level ts e) (hts : NamesAreWords ts) : e.form.Plain := by
  match h with
  | .tighter _ h => exact h.plain hts
  | .primary h => exact h.plain hts

theorem SpellsPrimary.plain {ts : List Token} {e : Expr} (h : SpellsPrimary ts e)
    (hts : NamesAreWords ts) : e.form.Plain := by
  match h with
  | .literal _ => exact Expr.plain_literal
  | .parenthesized _ h _ =>
    simp only [namesAreWords_append, namesAreWords_cons] at hts
    exact h.plain hts.2.1
  | .newObject _ hname h =>
    simp only [namesAreWords_cons] at hts
    exact Expr.plain_newObject.2 ⟨hname.isWord hts.2.1, h.plain hts.2.2⟩
  | .newArray _ hname _ h _ =>
    simp only [namesAreWords_append, namesAreWords_cons] at hts
    exact Expr.plain_newArray.2 ⟨hname.isWord hts.2.1, h.plain hts.2.2.2.1⟩
  | .access h => exact h.plain hts

theorem SpellsChain.plain {ts : List Token} {c : Chain} (h : SpellsChain ts c)
    (hts : NamesAreWords ts) : c.form.Plain := by
  match h with
  | .mk hhead hlinks =>
    simp only [namesAreWords_append] at hts
    exact Chain.form_plain.2 ⟨hhead.plain hts.1, hlinks.plain hts.2⟩

theorem SpellsHead.plain {ts : List Token} {head : Head} (h : SpellsHead ts head)
    (hts : NamesAreWords ts) : head.Plain := by
  match h with
  | .this _ => trivial
  | .name hname => exact (namesAreWords_cons.1 hts).1 hname
  | .call hname h =>
    obtain ⟨ht, hargs⟩ := namesAreWords_cons.1 hts
    exact ⟨ht hname, h.plain hargs⟩

theorem SpellsLinks.plain {ts : List Token} {links : List Link} (h : SpellsLinks ts links)
    (hts : NamesAreWords ts) : ∀ l ∈ links, l.Plain := by
  match h with
  | .nil => exact nofun
  | .field _ hname h =>
    simp only [namesAreWords_cons] at hts
    exact List.forall_mem_cons.2 ⟨hts.2.1 hname, h.plain hts.2.2⟩
  | .call _ hname hargs h =>
    simp only [namesAreWords_append, namesAreWords_cons] at hts
    exact List.forall_mem_cons.2 ⟨⟨hts.2.1 hname, hargs.plain hts.2.2.1⟩, h.plain hts.2.2.2⟩
  | .index _ h _ hlinks =>
    simp only [namesAreWords_append, namesAreWords_cons] at hts
    exact List.forall_mem_cons.2 ⟨h.plain hts.2.1, hlinks.plain hts.2.2.2⟩

theorem SpellsArguments.plain {ts : List Token} {args : List Expr} (h : SpellsArguments ts args)
    (hts : NamesAreWords ts) : ∀ e ∈ args, e.form.Plain := by
  match h with
  | .none _ _ => exact nofun
  | .some _ h _ =>
    simp only [namesAreWords_append, namesAreWords_cons] at hts
    exact h.plain hts.2.1

theorem SpellsSeries.plain {ts : List Token} {es : List Expr} (h : SpellsSeries ts es)
    (hts : NamesAreWords ts) : ∀ e ∈ es, e.form.Plain := by
  match h with
  | .one h => exact List.forall_mem_singleton.2 (h.plain hts)
  | .more h _ hs =>
    simp only [namesAreWords_append, namesAreWords_cons] at hts
    exact List.forall_mem_cons.2 ⟨h.plain hts.1, hs.plain hts.2.2⟩

end

theorem SpellsOptional.plain {α : Type} {Phrase : List Token → α → Prop} {Plain : α → Prop}
    {value : Option α} (h : SpellsOptional Phrase ts value)
    (hplain : ∀ {a}, Phrase ts a → Plain a) : ∀ a ∈ value, Plain a := by
  cases h with
  | none => exact nofun
  | some h =>
    rintro _ ⟨⟩
    exact hplain h

theorem SpellsType.isWord {type_ : Ty} (h : SpellsType ts type_) (hts : NamesAreWords ts) :
    IsWord type_.name := by
  cases h with
  | plain hname => exact hname.isWord (namesAreWords_cons.1 hts).1
  | array hname _ _ => exact hname.isWord (namesAreWords_cons.1 hts).1

theorem SpellsExpr.plain {e : Expr} (h : SpellsExpr ts e) (hts : NamesAreWords ts) :
    e.form.Plain := Spells.plain h hts

theorem SpellsValue.plain {e : Expr} (h : SpellsValue ts e) (hts : NamesAreWords ts) :
    e.form.Plain := by
  cases h with
  | mk _ h => exact h.plain (namesAreWords_cons.1 hts).2

theorem SpellsVariable.plain {v : Variable} (h : SpellsVariable ts v) (hts : NamesAreWords ts) :
    v.form.Plain := by
  cases h with
  | mk htype hname hvalue =>
    simp only [namesAreWords_append, namesAreWords_cons] at hts
    exact Variable.form_plain.2 ⟨hts.2.1 hname, htype.isWord hts.1,
      hvalue.plain fun h => h.plain hts.2.2⟩

theorem SpellsAssignment.plain {a : Assignment} (h : SpellsAssignment ts a)
    (hts : NamesAreWords ts) : a.target.form.Plain ∧ a.value.form.Plain := by
  cases h with
  | mk htarget _ _ _ hvalue =>
    simp only [namesAreWords_append, namesAreWords_cons] at hts
    exact ⟨htarget.plain hts.1, hvalue.plain hts.2.2⟩

theorem SpellsAction.plain {a : Action} (h : SpellsAction ts a) (hts : NamesAreWords ts) :
    a.form.Plain := by
  cases h with
  | assignment h => exact Action.plain_assignment.2 (h.plain hts)
  | call h _ => exact Action.plain_call.2 (h.plain hts)

theorem SpellsCondition.plain {e : Expr} (h : SpellsCondition ts e) (hts : NamesAreWords ts) :
    e.form.Plain := by
  cases h with
  | mk _ h _ =>
    simp only [namesAreWords_append, namesAreWords_cons] at hts
    exact h.plain hts.2.1

theorem SpellsForInit.plain {i : ForInit} (h : SpellsForInit ts i) (hts : NamesAreWords ts) :
    i.asStatement.form.Plain := by
  cases h with
  | declaration h => exact Statement.plain_declaration.2 (h.plain hts)
  | assignment h => exact Statement.plain_action.2 (Action.plain_assignment.2 (h.plain hts))

theorem SpellsJump.plain {around : Surroundings} {j : Jump} (h : SpellsJump around ts j)
    (hts : NamesAreWords ts) : j.form.Plain := by
  cases h with
  | return_ _ hvalue =>
    exact Jump.plain_return.2 (hvalue.plain fun h => h.plain (namesAreWords_cons.1 hts).2)
  | break_ => simp +decide [Jump.form]
  | continue_ => simp +decide [Jump.form]

mutual

theorem SpellsStatement.plain {around : Surroundings} {ts : List Token} {s : Statement}
    (h : SpellsStatement around ts s) (hts : NamesAreWords ts) : s.form.Plain := by
  match h with
  | .block h => exact Statement.plain_block.2 (h.plain hts)
  | .conditional _ htest h =>
    simp only [namesAreWords_append, namesAreWords_cons] at hts
    exact Statement.plain_conditional.2 ⟨htest.plain hts.2.1, h.plain hts.2.2, nofun⟩
  | .alternative _ htest h _ _ hother =>
    simp only [namesAreWords_append, namesAreWords_cons] at hts
    have hotherwise := hother.plain hts.2.2.2.2
    refine Statement.plain_conditional.2 ⟨htest.plain hts.2.1, h.plain hts.2.2.1, ?_⟩
    rintro _ ⟨⟩
    exact hotherwise
  | .whileLoop _ htest h =>
    simp only [namesAreWords_append, namesAreWords_cons] at hts
    exact Statement.plain_whileLoop.2 ⟨htest.plain hts.2.1, h.plain hts.2.2⟩
  | .forLoop _ _ hinit _ htest _ hupdate _ h =>
    simp only [namesAreWords_append, namesAreWords_cons] at hts
    obtain ⟨-, -, his, -, hcs, -, hus, -, hbody⟩ := hts
    exact Statement.plain_forLoop.2 ⟨hinit.plain fun h => h.plain his,
      htest.plain fun h => h.plain hcs, hupdate.plain fun h => h.plain hus, h.plain hbody⟩
  | .switch _ hselector _ harms _ =>
    simp only [namesAreWords_append, namesAreWords_cons] at hts
    exact Statement.plain_switch.2 ⟨hselector.plain hts.2.1, harms.plain hts.2.2.2.1⟩
  | .jump hj _ => exact Statement.plain_jump.2 (hj.plain (namesAreWords_append.1 hts).1)
  | .declaration hv _ =>
    exact Statement.plain_declaration.2 (hv.plain (namesAreWords_append.1 hts).1)
  | .action ha _ => exact Statement.plain_action.2 (ha.plain (namesAreWords_append.1 hts).1)

theorem SpellsBlock.plain {around : Surroundings} {ts : List Token} {b : Block}
    (h : SpellsBlock around ts b) (hts : NamesAreWords ts) :
    ∀ s ∈ b.statements, s.form.Plain := by
  match h with
  | .mk _ h _ =>
    simp only [namesAreWords_append, namesAreWords_cons] at hts
    exact h.plain hts.2.1

theorem SpellsStatements.plain {around : Surroundings} {ts : List Token} {ss : List Statement}
    (h : SpellsStatements around ts ss) (hts : NamesAreWords ts) : ∀ s ∈ ss, s.form.Plain := by
  match h with
  | .nil => exact nofun
  | .cons h hs =>
    obtain ⟨hfirst, hrest⟩ := namesAreWords_append.1 hts
    exact List.forall_mem_cons.2 ⟨h.plain hfirst, hs.plain hrest⟩

theorem SpellsArms.plain {around : Surroundings} {ts : List Token} {cases : List Case}
    {default_ : Option Block} (h : SpellsArms around ts cases default_) (hts : NamesAreWords ts) :
    (∀ c ∈ cases, ∀ s ∈ (Case.body c).statements, s.form.Plain) ∧
      ∀ b ∈ default_, ∀ s ∈ Block.statements b, s.form.Plain := by
  match h with
  | .nil => exact ⟨nofun, nofun⟩
  | .case _ _ _ _ h harms =>
    simp only [namesAreWords_append, namesAreWords_cons] at hts
    obtain ⟨-, -, -, hbody, hrest⟩ := hts
    obtain ⟨hcases, hdefault⟩ := harms.plain hrest
    exact ⟨List.forall_mem_cons.2 ⟨h.plain hbody, hcases⟩, hdefault⟩
  | .default_ _ _ h harms =>
    simp only [namesAreWords_append, namesAreWords_cons] at hts
    have hbody := h.plain hts.2.2.1
    refine ⟨(harms.plain hts.2.2.2).1, ?_⟩
    rintro _ ⟨⟩
    exact hbody

end

theorem SpellsMembers.plain {className : String} {m : Members}
    (h : SpellsMembers className ts m) (hts : NamesAreWords ts) :
    ∀ p ∈ m.properties, p.variable_.form.Plain := by
  induction h with
  | nil => exact nofun
  | property hp _ ih =>
    cases hp with
    | mk _ hv _ _ =>
      simp only [namesAreWords_append] at hts
      exact List.forall_mem_cons.2 ⟨hv.plain hts.1.2.1, ih hts.2⟩
  | constructor _ _ _ ih => exact ih (namesAreWords_append.1 hts).2
  | method _ _ ih => exact ih (namesAreWords_append.1 hts).2
  | main _ _ _ ih => exact ih (namesAreWords_append.1 hts).2

end Grammar

/-! ## Places in trees with plain forms -/

/-- The names at a place are words. -/
def Place.Plain : Place → Prop
  | statement s => s.form.Plain
  | target c => c.form.Plain
  | expr e => e.form.Plain
  | boundary _ => True

theorem Expr.plain_places (e : Expr) (h : e.form.Plain) : ∀ place ∈ e.places, place.Plain := by
  induction e using Expr.induction with
  | literal p value =>
    rw [places_literal]
    exact List.forall_mem_singleton.2 h
  | binary op left right ihl ihr =>
    obtain ⟨hleft, hright⟩ := plain_binary.1 h
    rw [places_binary, List.forall_mem_cons, List.forall_mem_append]
    exact ⟨h, ihl hleft, ihr hright⟩
  | access head links ihh ihl =>
    rw [places_access, List.forall_mem_cons, List.forall_mem_flatMap]
    refine ⟨h, fun e he => ?_⟩
    have hplain := Chain.plain_operands h e he
    rcases List.mem_append.1 he with he | he
    · exact ihh e he hplain
    · obtain ⟨l, hl, he⟩ := List.mem_flatMap.1 he
      exact ihl l hl e he hplain
  | newObject p className args ih =>
    obtain ⟨-, hargs⟩ := plain_newObject.1 h
    rw [places_newObject, List.forall_mem_cons, List.forall_mem_flatMap]
    exact ⟨h, fun e he => ih e he (hargs e he)⟩
  | newArray p element length ih =>
    obtain ⟨-, hlength⟩ := plain_newArray.1 h
    rw [places_newArray, List.forall_mem_cons]
    exact ⟨h, ih hlength⟩

theorem plain_flatMap_places {es : List Expr} (h : ∀ e ∈ es, e.form.Plain) :
    ∀ place ∈ es.flatMap Expr.places, place.Plain :=
  List.forall_mem_flatMap.2 fun e he => e.plain_places (h e he)

theorem Action.plain_places (a : Action) (h : a.form.Plain) :
    ∀ place ∈ a.places, place.Plain := by
  cases a with
  | assignment a =>
    obtain ⟨htarget, hvalue⟩ := plain_assignment.1 h
    refine List.forall_mem_cons.2 ⟨htarget, plain_flatMap_places ?_⟩
    rw [List.forall_mem_append, List.forall_mem_singleton]
    exact ⟨Chain.plain_operands htarget, hvalue⟩
  | call c => exact (Expr.access c).plain_places (plain_call.1 h)

theorem Statement.plain_own (s : Statement) (h : s.form.Plain) :
    ∀ place ∈ s.own, place.Plain := by
  unfold own
  refine List.forall_mem_cons.2 ⟨h, ?_⟩
  cases s with
  | block b => exact List.forall_mem_nil _
  | conditional p e body otherwise => exact e.plain_places (plain_conditional.1 h).1
  | whileLoop p e body => exact e.plain_places (plain_whileLoop.1 h).1
  | forLoop p id init e update body => exact List.forall_mem_nil _
  | switch p id e cases default_ => exact e.plain_places (plain_switch.1 h).1
  | jump p j =>
    cases j with
    | return_ value =>
      cases value with
      | none => exact List.forall_mem_nil _
      | some e => exact e.plain_places (Jump.plain_return.1 (plain_jump.1 h) e rfl)
    | break_ => exact List.forall_mem_nil _
    | continue_ => exact List.forall_mem_nil _
  | action a => exact a.plain_places (plain_action.1 h)
  | declaration v =>
    refine plain_flatMap_places fun e he => ?_
    exact (Variable.form_plain.1 (plain_declaration.1 h)).2.2 e (Option.mem_toList.1 he)

theorem statementPlaces_eq (ss : List Statement) :
    statementPlaces ss = ss.flatMap Statement.places := by
  induction ss with
  | nil => rw [statementPlaces, List.flatMap_nil]
  | cons s ss ih => rw [statementPlaces, List.flatMap_cons, ih]

theorem Block.places_eq (b : Block) : b.places = b.statements.flatMap Statement.places := by
  obtain ⟨id, p, ss⟩ := b
  rw [places, statementPlaces_eq]
  rfl

theorem casePlaces_eq (cs : List Case) : casePlaces cs = cs.flatMap fun c => c.body.places := by
  induction cs with
  | nil => rw [casePlaces, List.flatMap_nil]
  | cons c cs ih =>
    obtain ⟨p, q, label, body⟩ := c
    rw [casePlaces, List.flatMap_cons, ih]
    rfl

theorem Statement.plain_places (s : Statement) (h : s.form.Plain) :
    ∀ place ∈ s.places, place.Plain := by
  have hbodies : ∀ {b : Block}, (∀ s ∈ b.statements, ∀ place ∈ s.places, place.Plain) →
      ∀ place ∈ b.places, place.Plain := by
    intro b hb
    rw [b.places_eq]
    exact List.forall_mem_flatMap.2 hb
  induction s using Statement.induction with
  | block b ih =>
    rw [places, List.forall_mem_append]
    exact ⟨plain_own _ h, hbodies fun s hs => ih s hs (plain_block.1 h s hs)⟩
  | conditional p e body otherwise ihbody ihother =>
    obtain ⟨-, hbody, hother⟩ := plain_conditional.1 h
    rw [places, List.forall_mem_append, List.forall_mem_append]
    refine ⟨plain_own _ h, ihbody hbody, ?_⟩
    cases otherwise with
    | none => exact List.forall_mem_nil _
    | some s => exact ihother s rfl (hother s rfl)
  | whileLoop p e body ih =>
    rw [places, List.forall_mem_append]
    exact ⟨plain_own _ h, ih (plain_whileLoop.1 h).2⟩
  | forLoop p id init e update body ih =>
    obtain ⟨hinit, htest, hupdate, hbody⟩ := plain_forLoop.1 h
    rw [places, List.forall_mem_append, List.forall_mem_append, List.forall_mem_append,
      List.forall_mem_append]
    refine ⟨plain_own _ h, List.forall_mem_flatMap.2 fun i hi => ?_,
      plain_flatMap_places fun e' he => htest e' (Option.mem_toList.1 he),
      List.forall_mem_flatMap.2 fun a ha => ?_, ih hbody⟩
    · exact plain_own _ (hinit i (Option.mem_toList.1 hi))
    · exact plain_own _ (plain_action.2 (hupdate a (Option.mem_toList.1 ha)))
  | switch p id e cases default_ ihc ihd =>
    obtain ⟨-, hcases, hdefault⟩ := plain_switch.1 h
    rw [places, List.forall_mem_append, List.forall_mem_append, casePlaces_eq]
    refine ⟨plain_own _ h, List.forall_mem_flatMap.2 fun c hc => ?_, ?_⟩
    · exact hbodies fun s hs => ihc c hc s hs (hcases c hc s hs)
    · cases default_ with
      | none => exact List.forall_mem_nil _
      | some b => exact hbodies fun s hs => ihd b rfl s hs (hdefault b rfl s hs)
  | jump p j =>
    rw [places]
    exact plain_own _ h
  | action a =>
    rw [places]
    exact plain_own _ h
  | declaration v =>
    rw [places]
    exact plain_own _ h

/-! ## What is read from a source text -/

/-- Statements and expressions come out of tokens if they are read at one of them, with all their
parts, or if they stand in the program that is read from the tokens. -/
inductive Produces (ts : List Token) (place : Place) : Prop
  | expression {finish : Position} {us : List Token} {r : Parsed Expr us.length} : us <:+ ts →
      Grammar.expression finish us = .ok r → place ∈ r.value.places → Produces ts place
  | statement {finish : Position} {around : Surroundings} {id : NodeId} {us : List Token}
      {r : Parsed (Statement × NodeId) us.length} : us <:+ ts →
      Grammar.statement finish around id us = .ok r → place ∈ r.value.1.places → Produces ts place
  | program {p : Program} {d : ClassDecl} {tour : Tour Place} : parse ts = .ok p →
      .class_ d ∈ p.declarations → tour ∈ d.tours → place ∈ tour.visits → Produces ts place

theorem plain_of_expression {finish : Position} {ts : List Token} {r : Parsed Expr ts.length}
    (h : expression finish ts = .ok r) (hts : NamesAreWords ts) : r.value.form.Plain := by
  obtain ⟨phrase, hphrase, hspelled⟩ := expression_taken r h
  rw [← r.value.form_marked .none]
  exact hspelled.plain (hts.subset (hphrase ▸ List.subset_append_left ..))

theorem plain_of_statement {finish : Position} {around : Surroundings} {id : NodeId}
    {ts : List Token} {r : Parsed (Statement × NodeId) ts.length}
    (h : statement finish around id ts = .ok r) (hts : NamesAreWords ts) :
    r.value.1.form.Plain := by
  obtain ⟨phrase, hphrase, hspelled⟩ := (statement_taken finish around id ts r h).phrase
  rw [← r.value.1.form_marked .none]
  exact hspelled.plain (hts.subset (hphrase ▸ List.subset_append_left ..))

/-- The names in a class of a program are words. -/
theorem plain_of_parse {ts : List Token} {p : Program} (h : parse ts = .ok p)
    (hts : NamesAreWords ts) {d : ClassDecl} (hd : .class_ d ∈ p.declarations) :
    (∀ e ∈ d.values, e.form.Plain) ∧
      ∀ m ∈ d.members, ∀ s ∈ m.body.statements, s.form.Plain := by
  constructor
  · obtain ⟨us, hus, hspelled⟩ := (spellsProgram_of_parse h).spelledIn _ (List.mem_map_of_mem hd)
    obtain ⟨vs, hvs, hmembers⟩ := SpellsTypeDecl.members hspelled
    have hproperties := hmembers.plain (hts.subset (List.Subset.trans hvs hus))
    intro e he
    obtain ⟨property, hproperty, hvalue⟩ := List.mem_filterMap.1 he
    have hform := hproperties _ (List.mem_map_of_mem hproperty)
    rw [Property.marked, Variable.form_marked] at hform
    exact (Variable.form_plain.1 hform).2.2 e hvalue
  · intro m hm s hs
    obtain ⟨us, hus, hspelled⟩ := bodies_of_parse h hd m hm
    have hbody := Statement.plain_block.2 (hspelled.plain (hts.subset hus))
    rw [Statement.form, Block.form_marked] at hbody
    exact Statement.plain_block.1 hbody s hs

theorem Produces.plain {ts : List Token} {place : Place} (h : Produces ts place)
    (hts : NamesAreWords ts) : place.Plain := by
  cases h with
  | expression hus hr hplace =>
    exact Expr.plain_places _ (plain_of_expression hr (hts.subset hus.subset)) place hplace
  | statement hus hr hplace =>
    exact Statement.plain_places _ (plain_of_statement hr (hts.subset hus.subset)) place hplace
  | program hp hd htour hplace =>
    obtain ⟨hvalues, hbodies⟩ := plain_of_parse hp hts hd
    rw [ClassDecl.tours, List.mem_cons, List.mem_map] at htour
    obtain rfl | ⟨m, hm, rfl⟩ := htour
    · rcases List.mem_append.1 hplace with hplace | hplace
      · exact plain_flatMap_places hvalues place hplace
      · rw [List.mem_singleton.1 hplace]
        trivial
    · rcases List.mem_append.1 hplace with hplace | hplace
      · rw [Block.places_eq] at hplace
        obtain ⟨s, hs, hplace⟩ := List.mem_flatMap.1 hplace
        exact s.plain_places (hbodies m hm s hs) place hplace
      · rw [List.mem_singleton.1 hplace]
        trivial

/-- Statements that are read from source texts are the same, up to the marks of their nodes, if they
are printed in the same way, and so are expressions. -/
theorem printed_apart {source source' : String} {ts ts' : List Token}
    (h : tokenize source = .ok ts) (h' : tokenize source' = .ok ts') :
    (∀ s s' : Statement, Produces ts (.statement s) → Produces ts' (.statement s') →
      printStatement s = printStatement s' → s.marked .none = s'.marked .none) ∧
    ∀ e e' : Expr, Produces ts (.expr e) → Produces ts' (.expr e') →
      printExpr e = printExpr e' → e.marked .none = e'.marked .none := by
  have hts := namesAreWords_tokenize h
  have hts' := namesAreWords_tokenize h'
  exact ⟨fun s s' hs hs' => Statement.print_inj (hs.plain hts) (hs'.plain hts'),
    fun e e' he he' => Expr.print_inj (he.plain hts) (he'.plain hts')⟩

/-! ### A call in two source texts -/

/-- The text `f();` if it starts in this column of the first line. -/
def callChars (column : Nat) : List SourceChar :=
  [⟨'f', ⟨1, column⟩⟩, ⟨'(', ⟨1, column + 1⟩⟩, ⟨')', ⟨1, column + 2⟩⟩, ⟨';', ⟨1, column + 3⟩⟩]

def callTokens (column : Nat) : List Token :=
  [⟨.identifier, "f", ⟨1, column⟩⟩, ⟨.symbol .leftParen, "(", ⟨1, column + 1⟩⟩,
    ⟨.symbol .rightParen, ")", ⟨1, column + 2⟩⟩, ⟨.symbol .semicolon, ";", ⟨1, column + 3⟩⟩]

def callChain (column : Nat) : Chain := .mk (.call ⟨1, column⟩ "f" []) []

theorem tokensFrom_call {column : Nat} {cs : List SourceChar}
    (h : Lexer.next ⟨cs, none⟩ = Lexer.next ⟨callChars column, none⟩) :
    Lexer.tokensFrom [] ⟨cs, none⟩ = .ok (callTokens column) := by
  have hnext : ∀ i (hi : i < 4), Lexer.next ⟨(callChars column).drop i, none⟩ =
      some (.ok ((callTokens column).get ⟨i, hi⟩), ⟨(callChars column).drop (i + 1), none⟩) := by
    intro i hi
    match i with
    | 0 | 1 | 2 | 3 => rfl
  rw [tokensFrom_of_next (h.trans (hnext 0 (by decide))), tokensFrom_of_next (hnext 1 (by decide)),
    tokensFrom_of_next (hnext 2 (by decide)), tokensFrom_of_next (hnext 3 (by decide)),
    Lexer.tokensFrom]
  rfl

theorem statement_call (column : Nat) : Grammar.statement .start .none 0 (callTokens column) =
    .ok ⟨(.action (.call (callChain column)), 0), [], Nat.zero_lt_succ _⟩ := by
  have hchain : Grammar.chain .start (callTokens column) =
      .ok ⟨callChain column, (callTokens column).drop 3, by simp [callTokens]⟩ := by cbv
  have haction : Grammar.action .start (callTokens column) =
      .ok ⟨.call (callChain column), (callTokens column).drop 3, by simp [callTokens]⟩ := by
    rw [Grammar.action, hchain]
    rfl
  have hdeclaration : Grammar.atDeclaration (callTokens column) = false := rfl
  rw [Grammar.statement, hdeclaration, haction]
  rfl

/-- A call that stands in different columns of two source texts is printed in the same way, as a
statement and as an expression, and it is the same but for its marks. -/
theorem printed_apart_call :
    tokenize "f();" = .ok (callTokens 0) ∧ tokenize " f();" = .ok (callTokens 1) ∧
      callChain 0 ≠ callChain 1 ∧
      (Statement.action (.call (callChain 0))).marked .none =
        (Statement.action (.call (callChain 1))).marked .none ∧
      (Expr.access (callChain 0)).marked .none = (Expr.access (callChain 1)).marked .none := by
  have hdecode : Lexer.ofSource "f();" = ⟨callChars 0, none⟩ := by cbv
  have hdecode' : Lexer.ofSource " f();" = ⟨⟨' ', ⟨1, 0⟩⟩ :: callChars 1, none⟩ := by cbv
  have htokens : tokenize "f();" = .ok (callTokens 0) := by
    rw [tokenize, hdecode, tokensFrom_call rfl]
  have htokens' : tokenize " f();" = .ok (callTokens 1) := by
    rw [tokenize, hdecode', tokensFrom_call (next_blank rfl _ _)]
  have hstatement : ∀ column,
      Produces (callTokens column) (.statement (.action (.call (callChain column)))) :=
    fun column => .statement (List.suffix_refl _) (statement_call column) (List.mem_cons_self ..)
  have hexpr : ∀ column, Produces (callTokens column) (.expr (.access (callChain column))) := by
    refine fun column => .statement (List.suffix_refl _) (statement_call column) ?_
    simp [Statement.places, Statement.own, Action.places, callChain]
  obtain ⟨hstatements, hexprs⟩ := printed_apart htokens htokens'
  refine ⟨htokens, htokens', by simp [callChain], ?_, ?_⟩
  · exact hstatements _ _ (hstatement 0) (hstatement 1) rfl
  · exact hexprs _ _ (hexpr 0) (hexpr 1) rfl

end Javelet
