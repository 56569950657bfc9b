import Javelet.Proofs.Syntax.Form
import Javelet.Proofs.Syntax.Marks
import Javelet.Syntax.Printer

/-!
# Printed trees tell the trees

Each tree has a form, and what is printed is the text of the form. A form tells the tree that it
belongs to, up to the marks of its nodes. So trees are the same, up to marks, if they are printed in
the same way and all their names are words.
-/
namespace Javelet

open Syntax

/-! ## The forms of trees -/

def Ty.form (t : Ty) : Form := .word t.name t.isArray

def Literal.form : Literal → Form
  | .int value => .node "num" [.plain (int32Text value)]
  | .char value => .node "char" [.quoted '\'' [value]]
  | .boolean value => .node "boolean" [.plain (booleanText value)]
  | .string value => .node "string" [.quoted '"' value.toList]
  | .null => .node "null" []

mutual

def Expr.form : Expr → Form
  | .literal _ value => value.form
  | .binary op left right =>
    .node "binop" [.plain op.text, .plain ":left", left.form, .plain ":right", right.form]
  | .access chain => chain.form
  | .newObject _ className args =>
    .node "object-creation" [.plain className, .plain ":args", .list (exprForms args)]
  | .newArray _ element length =>
    .node "array-creation" [.plain element, .plain ":length", length.form]

def exprForms : List Expr → List Form
  | [] => []
  | e :: rest => e.form :: exprForms rest

def Chain.form : Chain → Form
  | .mk (.this _) links => .node "this" (linkForm? links).toList
  | .mk (.name _ name) links => .node "field" ([.plain name] ++ (linkForm? links).toList)
  | .mk (.call _ name args) links =>
    .node "method-call"
      ([.plain name, .plain ":args", .list (exprForms args)] ++ (linkForm? links).toList)

def linkForm? : List Link → Option Form
  | [] => none
  | .field _ name :: rest => some (.node "field" ([.plain name] ++ (linkForm? rest).toList))
  | .call _ name args :: rest =>
    some (.node "method-call"
      ([.plain name, .plain ":args", .list (exprForms args)] ++ (linkForm? rest).toList))
  | .index _ index :: rest =>
    some (.node "array" ([.plain ":at", index.form] ++ (linkForm? rest).toList))

end

/-- The parts of an assignment. -/
def Assignment.forms (a : Assignment) : List Form :=
  [.plain a.op.text, .plain ":left", a.target.form, .plain ":right", a.value.form]

def Variable.form (v : Variable) : Form :=
  .node "var-decl" ([.plain v.name, .plain ":type", v.type.form] ++ (v.value.map Expr.form).toList)

def Action.form : Action → Form
  | assignment a => .node "assignment" a.forms
  | call chain => .node "method-call-stmt" [chain.form]

def Jump.form : Jump → Form
  | return_ value => .node "return" (value.map Expr.form).toList
  | break_ => .node "break" []
  | continue_ => .node "continue" []

def ForInit.forms : ForInit → List Form
  | declaration v => [.plain ":init", v.form]
  | assignment a => .plain ":init" :: a.forms

/-- The clauses of a for loop in front of its body. -/
def clauses (init : Option ForInit) (condition : Option Expr) (update : Option Action) :
    List (List Form) :=
  init.toList.map ForInit.forms ++
  condition.toList.map (fun e => [.plain ":condition", e.form]) ++
  update.toList.map (fun a => [.plain ":update", a.form]) ++ [[.plain ":body"]]

mutual

def Statement.form : Statement → Form
  | .block body => body.form
  | .conditional _ condition body none => .node "if" [condition.form, .plain ":body", body.form]
  | .conditional _ condition body (some otherwise) =>
    .node "if" ([condition.form, .plain ":body", body.form, .plain ":else"] ++ [otherwise.form])
  | .whileLoop _ condition body => .node "while" [condition.form, .plain ":body", body.form]
  | .forLoop _ _ init condition update body =>
    .node "for" ((clauses init condition update).flatten ++ [body.form])
  | .switch _ _ selector cases none =>
    .node "switch" [selector.form, .plain ":case", .list (caseForms cases)]
  | .switch _ _ selector cases (some default_) =>
    .node "switch"
      [selector.form, .plain ":case", .list (caseForms cases), .plain ":default",
        .list default_.itemForms]
  | .jump _ jump => jump.form
  | .action action => action.form
  | .declaration v => v.form

def statementForms : List Statement → List Form
  | [] => []
  | s :: rest => s.form :: statementForms rest

def Block.itemForms : Block → List Form
  | .mk _ _ statements => statementForms statements

def Block.form : Block → Form
  | .mk _ _ statements => .node "stmt-block" (statementForms statements)

def caseForms : List Case → List Form
  | [] => []
  | .mk _ _ label body :: rest =>
    .node "case" [label.form, .plain ":do", .list body.itemForms] :: caseForms rest

end

/-! ## What is printed is the text of the form -/

namespace Form

theorem spread_append (sep : List Char) (fs gs : List Form) :
    spread sep sep (fs ++ gs) = spread sep sep fs ++ spread sep sep gs := by
  induction fs with
  | nil => rw [List.nil_append, spread, List.nil_append]
  | cons f fs ih => rw [List.cons_append, spread, ih, spread, List.append_assoc, List.append_assoc]

/-- Groups of forms with a separator between two of them. -/
theorem intercalate_spread (sep : List Char) {groups : List (List Form)}
    (h : ∀ g ∈ groups, g ≠ []) :
    sep.intercalate (groups.map (spread [] sep)) = spread [] sep groups.flatten := by
  induction groups with
  | nil => rfl
  | cons g groups ih =>
    obtain ⟨hg, hrest⟩ := List.forall_mem_cons.1 h
    obtain ⟨f, fs, rfl⟩ := List.exists_cons_of_ne_nil hg
    cases groups with
    | nil => simp [List.intercalate]
    | cons g' groups =>
      obtain ⟨f', fs', rfl⟩ := List.exists_cons_of_ne_nil (hrest g' (List.mem_cons_self ..))
      have hread := ih hrest
      simp only [List.flatten_cons, List.cons_append, spread, List.nil_append] at hread ⊢
      rw [spread_append, spread, ← hread]
      simp [List.intercalate, spread]

theorem intercalate_text (sep : List Char) (fs : List Form) :
    sep.intercalate (fs.map text) = spread [] sep fs := by
  have hgroups : (fs.map fun f => [f]).map (spread [] sep) = fs.map text := by
    simp [spread, Function.comp_def]
  rw [← hgroups, intercalate_spread sep (by simp), ← List.flatMap_def, List.flatMap_singleton']

theorem toList_node {tag content : String} {successor : Option String} (parts : List Form)
    (next : Option Form) (hparts : ∀ f ∈ parts, f.Plain)
    (hcontent : content.toList = spread [] (separator tag) parts)
    (hsuccessor : successor.map String.toList = next.map text)
    (hnext : next = none ∨ separator tag = [' ']) :
    (Syntax.node tag content successor).toList = (Form.node tag (parts ++ next.toList)).text := by
  have hfront : (if content.isEmpty then "" else " " ++ content).toList =
      spread [' '] (separator tag) parts := by
    cases parts with
    | nil =>
      obtain rfl : content = "" := String.toList_eq_nil_iff.1 hcontent
      rfl
    | cons f fs =>
      obtain ⟨c, cs, htext, -⟩ := (hparts f (List.mem_cons_self ..)).head
      have hne : content ≠ "" := by
        rintro rfl
        rw [spread, htext] at hcontent
        cases hcontent
      simp [hne, hcontent, spread]
  cases next with
  | none =>
    obtain rfl : successor = none := Option.map_eq_none_iff.1 hsuccessor
    rw [Option.toList_none, List.append_nil, Form.text, ← hfront]
    simp [Syntax.node]
  | some f =>
    obtain ⟨printed, rfl, hprinted⟩ := Option.map_eq_some_iff.1 hsuccessor
    have hblank := hnext.resolve_left (Option.some_ne_none f)
    rw [hblank] at hfront
    rw [Option.toList_some, Form.text, hblank, spread_append, ← hfront]
    simp [Syntax.node, spread, hprinted]

theorem toList_bracketed {items : List String} {fs : List Form}
    (h : (∀ f ∈ fs, f.Plain) → items.map String.toList = fs.map text) (hfs : (list fs).Plain) :
    (bracketed items).toList = (list fs).text := by
  rw [bracketed, String.toList_append, String.toList_append, String.toList_intercalate,
    h (plain_list.1 hfs), intercalate_text, text]
  rfl

/-- A node without a successor, and a node with one. -/
theorem toList_leaf {tag content : String} {parts : List Form} (hparts : ∀ f ∈ parts, f.Plain)
    (hcontent : content.toList = spread [] (separator tag) parts) :
    (Syntax.node tag content none).toList = (Form.node tag parts).text := by
  rw [toList_node parts none hparts hcontent rfl (.inl rfl), Option.toList_none, List.append_nil]

end Form

theorem Form.plain_of_append {tag : String} {parts parts' : List Form}
    (h : (Form.node tag (parts ++ parts')).Plain) :
    (∀ f ∈ parts, f.Plain) ∧ ∀ f ∈ parts', f.Plain :=
  List.forall_mem_append.1 (Form.plain_node.1 h).2

theorem Literal.toList_print (value : Literal) (h : value.form.Plain) :
    (printLiteral value).toList = value.form.text := by
  have hparts : ∀ {tag : String} {parts : List Form}, (Form.node tag parts).Plain →
      ∀ f ∈ parts, f.Plain := fun h => (Form.plain_node.1 h).2
  cases value with
  | int value => exact Form.toList_leaf (hparts h) (by simp [Form.spread, Form.text])
  | char value => exact Form.toList_leaf (hparts h) (by simp [Form.spread, Form.text])
  | boolean value => exact Form.toList_leaf (hparts h) (by simp [Form.spread, Form.text])
  | string value =>
    exact Form.toList_leaf (hparts h) (by simp [Form.spread, Form.text, Text.visibleText])
  | null => exact Form.toList_leaf (hparts h) (by simp [Form.spread])

mutual

theorem Expr.toList_print : ∀ e : Expr, e.form.Plain → (printExpr e).toList = e.form.text
  | .literal _ value, h => value.toList_print h
  | .binary op left right, h => by
    have hparts := (Form.plain_node.1 h).2
    have hleft := left.toList_print (hparts _ (by simp))
    have hright := right.toList_print (hparts _ (by simp))
    rw [printExpr]
    exact Form.toList_leaf hparts (by simp [Form.spread, Form.text, Form.separator, hleft, hright])
  | .access chain, h => chain.toList_print h
  | .newObject _ className args, h => by
    have hparts := (Form.plain_node.1 h).2
    have hargs := Form.toList_bracketed (toList_printExprs args) (hparts _ (by simp))
    rw [printExpr]
    exact Form.toList_leaf hparts (by simp [Form.spread, Form.text, Form.separator, hargs])
  | .newArray _ element length, h => by
    have hparts := (Form.plain_node.1 h).2
    have hlength := length.toList_print (hparts _ (by simp))
    rw [printExpr]
    exact Form.toList_leaf hparts (by simp [Form.spread, Form.text, Form.separator, hlength])

theorem toList_printExprs : ∀ es : List Expr, (∀ f ∈ exprForms es, f.Plain) →
    (printExprs es).map String.toList = (exprForms es).map Form.text
  | [], _ => rfl
  | e :: rest, h => by
    obtain ⟨he, hrest⟩ := List.forall_mem_cons.1 h
    rw [printExprs, exprForms, List.map_cons, List.map_cons, e.toList_print he,
      toList_printExprs rest hrest]

theorem Chain.toList_print : ∀ c : Chain, c.form.Plain → (printChain c).toList = c.form.text
  | .mk (.this _) links, h => by
    have hlinks := toList_printLinks links (Form.plain_node.1 h).2
    rw [printChain, Chain.form]
    exact Form.toList_node [] _ nofun rfl hlinks (.inr rfl)
  | .mk (.name _ name) links, h => by
    obtain ⟨hparts, hlinks⟩ := Form.plain_of_append h
    rw [printChain, Chain.form]
    exact Form.toList_node _ _ hparts (by simp [Form.spread, Form.text])
      (toList_printLinks links hlinks) (.inr rfl)
  | .mk (.call _ name args) links, h => by
    obtain ⟨hparts, hlinks⟩ := Form.plain_of_append h
    have hargs := Form.toList_bracketed (toList_printExprs args) (hparts _ (by simp))
    rw [printChain, Chain.form]
    exact Form.toList_node _ _ hparts (by simp [Form.spread, Form.text, Form.separator, hargs])
      (toList_printLinks links hlinks) (.inr rfl)

theorem toList_printLinks : ∀ links : List Link, (∀ f ∈ (linkForm? links).toList, f.Plain) →
    (printLinks links).map String.toList = (linkForm? links).map Form.text
  | [], _ => rfl
  | .field _ name :: rest, h => by
    obtain ⟨hparts, hlinks⟩ := Form.plain_of_append (List.forall_mem_singleton.1 h)
    rw [printLinks, linkForm?, Option.map_some, Option.map_some]
    exact congrArg some (Form.toList_node _ _ hparts (by simp [Form.spread, Form.text])
      (toList_printLinks rest hlinks) (.inr rfl))
  | .call _ name args :: rest, h => by
    obtain ⟨hparts, hlinks⟩ := Form.plain_of_append (List.forall_mem_singleton.1 h)
    have hargs := Form.toList_bracketed (toList_printExprs args) (hparts _ (by simp))
    rw [printLinks, linkForm?, Option.map_some, Option.map_some]
    exact congrArg some (Form.toList_node _ _ hparts
      (by simp [Form.spread, Form.text, Form.separator, hargs])
      (toList_printLinks rest hlinks) (.inr rfl))
  | .index _ index :: rest, h => by
    obtain ⟨hparts, hlinks⟩ := Form.plain_of_append (List.forall_mem_singleton.1 h)
    have hindex := index.toList_print (hparts _ (by simp))
    rw [printLinks, linkForm?, Option.map_some, Option.map_some]
    exact congrArg some (Form.toList_node _ _ hparts
      (by simp [Form.spread, Form.text, Form.separator, hindex])
      (toList_printLinks rest hlinks) (.inr rfl))

end

theorem Assignment.toList_text (a : Assignment) (h : ∀ f ∈ a.forms, f.Plain) :
    (assignmentText a).toList = Form.spread [] [' '] a.forms := by
  have htarget := a.target.toList_print (h _ (by simp [forms]))
  have hvalue := a.value.toList_print (h _ (by simp [forms]))
  simp [assignmentText, forms, Form.spread, Form.text, htarget, hvalue]

theorem toList_printOption (e : Option Expr) (h : ∀ f ∈ (e.map Expr.form).toList, f.Plain) :
    (e.map printExpr).map String.toList = (e.map Expr.form).map Form.text := by
  cases e with
  | none => rfl
  | some e => exact congrArg some (e.toList_print (h _ (by simp)))

theorem Variable.toList_print (v : Variable) (h : v.form.Plain) :
    (printVariable v).toList = v.form.text := by
  obtain ⟨hparts, hvalue⟩ := Form.plain_of_append h
  have htype : v.type.text.toList = v.type.form.text := by
    unfold Ty.text Ty.form
    split
    · rename_i harray
      simp [Form.text, harray]
    · rename_i harray
      simp [Form.text, harray]
  exact Form.toList_node _ _ hparts (by simp [Form.spread, Form.text, Form.separator, htype])
    (toList_printOption v.value hvalue) (.inr rfl)

theorem Action.toList_print (a : Action) (h : a.form.Plain) :
    (printAction a).toList = a.form.text := by
  cases a with
  | assignment a =>
    have hparts := (Form.plain_node.1 h).2
    exact Form.toList_leaf hparts (a.toList_text hparts)
  | call chain =>
    have hchain := chain.toList_print ((Form.plain_node.1 h).2 _ (List.mem_singleton_self _))
    rw [printAction, form]
    exact Form.toList_node [] (some chain.form) nofun rfl (congrArg some hchain) (.inr rfl)

theorem Jump.toList_print (j : Jump) (h : j.form.Plain) : (printJump j).toList = j.form.text := by
  cases j with
  | return_ value =>
    have hvalue := toList_printOption value (Form.plain_node.1 h).2
    rw [printJump, form]
    exact Form.toList_node [] _ nofun rfl hvalue (.inr rfl)
  | break_ => exact Form.toList_leaf nofun rfl
  | continue_ => exact Form.toList_leaf nofun rfl

theorem toList_forClauses (init : Option ForInit) (condition : Option Expr)
    (update : Option Action) (h : ∀ f ∈ (clauses init condition update).flatten, f.Plain) :
    (forClauses init condition update).map String.toList =
      (clauses init condition update).map (Form.spread [] [' ']) := by
  simp only [clauses, List.flatten_append, List.forall_mem_append] at h
  obtain ⟨⟨⟨hinit, hcondition⟩, hupdate⟩, -⟩ := h
  simp only [forClauses, clauses, List.map_append]
  congr 1
  · congr 1
    · congr 1
      · cases init with
        | none => rfl
        | some init =>
          cases init with
          | declaration v =>
            have hv := v.toList_print (hinit _ (by simp [ForInit.forms]))
            simp [ForInit.forms, Form.spread, Form.text, hv]
          | assignment a =>
            have ha := a.toList_text fun f hf => hinit f (by simp [ForInit.forms, hf])
            simp [ForInit.forms, Assignment.forms, Form.spread, Form.text, ha]
      · cases condition with
        | none => rfl
        | some e =>
          have he := e.toList_print (hcondition _ (by simp))
          simp [Form.spread, Form.text, he]
    · cases update with
      | none => rfl
      | some a =>
        have ha := a.toList_print (hupdate _ (by simp))
        simp [Form.spread, Form.text, ha]

theorem clauses_ne_nil {init : Option ForInit} {condition : Option Expr} {update : Option Action} :
    ∀ g ∈ clauses init condition update, g ≠ [] := by
  simp only [clauses, List.forall_mem_append, List.forall_mem_map, List.forall_mem_singleton]
  refine ⟨⟨⟨fun i _ => ?_, fun _ _ => List.cons_ne_nil _ _⟩, fun _ _ => List.cons_ne_nil _ _⟩,
    List.cons_ne_nil _ _⟩
  cases i with
  | declaration v => exact List.cons_ne_nil _ _
  | assignment a => exact List.cons_ne_nil _ _

mutual

theorem Statement.toList_print : ∀ s : Statement, s.form.Plain →
    (printStatement s).toList = s.form.text
  | .block body, h => body.toList_print h
  | .conditional _ condition body none, h => by
    have hparts := (Form.plain_node.1 h).2
    have hcondition := condition.toList_print (hparts _ (by simp))
    have hbody := body.toList_print (hparts _ (by simp))
    rw [printStatement]
    exact Form.toList_leaf hparts
      (by simp [Form.spread, Form.text, Form.separator, hcondition, hbody])
  | .conditional _ condition body (some otherwise), h => by
    obtain ⟨hparts, hother⟩ := Form.plain_of_append h
    have hcondition := condition.toList_print (hparts _ (by simp))
    have hbody := body.toList_print (hparts _ (by simp))
    have hotherwise := otherwise.toList_print (hother _ (List.mem_singleton_self _))
    rw [printStatement]
    exact Form.toList_node _ (some _) hparts
      (by simp [Form.spread, Form.text, Form.separator, hcondition, hbody])
      (congrArg some hotherwise) (.inr rfl)
  | .whileLoop _ condition body, h => by
    have hparts := (Form.plain_node.1 h).2
    have hcondition := condition.toList_print (hparts _ (by simp))
    have hbody := body.toList_print (hparts _ (by simp))
    rw [printStatement]
    exact Form.toList_leaf hparts
      (by simp [Form.spread, Form.text, Form.separator, hcondition, hbody])
  | .forLoop _ _ init condition update body, h => by
    obtain ⟨hclauses, hlast⟩ := Form.plain_of_append h
    have hbody := body.toList_print (hlast _ (List.mem_singleton_self _))
    rw [printStatement]
    refine Form.toList_node _ (some _) hclauses ?_ (congrArg some hbody) (.inr rfl)
    rw [String.toList_intercalate, toList_forClauses init condition update hclauses]
    exact Form.intercalate_spread [' '] clauses_ne_nil
  | .switch _ _ selector cases none, h => by
    have hparts := (Form.plain_node.1 h).2
    have hselector := selector.toList_print (hparts _ (by simp))
    have hcases := Form.toList_bracketed (toList_printCases cases) (hparts _ (by simp))
    rw [printStatement]
    exact Form.toList_leaf hparts
      (by simp [Form.spread, Form.text, Form.separator, hselector, hcases])
  | .switch _ _ selector cases (some default_), h => by
    have hparts := (Form.plain_node.1 h).2
    have hselector := selector.toList_print (hparts _ (by simp))
    have hcases := Form.toList_bracketed (toList_printCases cases) (hparts _ (by simp))
    have hdefault := Form.toList_bracketed default_.toList_items (hparts _ (by simp))
    rw [printStatement]
    exact Form.toList_leaf hparts
      (by simp [Form.spread, Form.text, Form.separator, hselector, hcases, hdefault])
  | .jump _ jump, h => jump.toList_print h
  | .action action, h => action.toList_print h
  | .declaration v, h => v.toList_print h

theorem toList_printStatements : ∀ ss : List Statement, (∀ f ∈ statementForms ss, f.Plain) →
    (printStatements ss).map String.toList = (statementForms ss).map Form.text
  | [], _ => rfl
  | s :: rest, h => by
    obtain ⟨hs, hrest⟩ := List.forall_mem_cons.1 h
    rw [printStatements, statementForms, List.map_cons, List.map_cons, s.toList_print hs,
      toList_printStatements rest hrest]

theorem Block.toList_items : ∀ b : Block, (∀ f ∈ b.itemForms, f.Plain) →
    (printItems b).map String.toList = b.itemForms.map Form.text
  | .mk _ _ statements, h => toList_printStatements statements h

theorem Block.toList_print : ∀ b : Block, b.form.Plain → (printBlock b).toList = b.form.text
  | .mk _ _ statements, h => by
    have hitems := (Form.plain_node.1 h).2
    have hprinted := toList_printStatements statements hitems
    rw [printBlock]
    refine Form.toList_leaf hitems ?_
    rw [String.toList_intercalate, hprinted, ← Form.intercalate_text]
    rfl

theorem toList_printCases : ∀ cs : List Case, (∀ f ∈ caseForms cs, f.Plain) →
    (printCases cs).map String.toList = (caseForms cs).map Form.text
  | [], _ => rfl
  | .mk _ _ label body :: rest, h => by
    obtain ⟨hcase, hrest⟩ := List.forall_mem_cons.1 h
    have hparts := (Form.plain_node.1 hcase).2
    have hlabel := label.toList_print (hparts _ (by simp))
    have hbody := Form.toList_bracketed body.toList_items (hparts _ (by simp))
    rw [printCases, caseForms, List.map_cons, List.map_cons, toList_printCases rest hrest]
    refine congrArg (· :: _) (Form.toList_leaf hparts ?_)
    simp [Form.spread, Form.text, Form.separator, hlabel, hbody]

end

/-! ## A form tells its tree -/

theorem toList_option_inj {α : Type} {o o' : Option α} : o.toList = o'.toList ↔ o = o' := by
  cases o with
  | none => cases o' <;> simp
  | some a => cases o' <;> simp

/-- All binary operators. -/
def BinaryOp.all : List BinaryOp :=
  List.map BinaryOp.arithmetic [.add, .sub, .mul, .div, .rem] ++
    List.map BinaryOp.relation [.less, .greater, .lessEqual, .greaterEqual, .equal, .notEqual] ++
    List.map BinaryOp.connective [.and, .or]

theorem BinaryOp.mem_all (op : BinaryOp) : op ∈ all := by
  cases op with
  | arithmetic op => cases op <;> decide
  | relation op => cases op <;> decide
  | connective op => cases op <;> decide

theorem BinaryOp.text_inj {op op' : BinaryOp} (h : op.text = op'.text) : op = op' := by
  have hall : ∀ op ∈ all, ∀ op' ∈ all, op.text = op'.text → op = op' := by decide
  exact hall op op.mem_all op' op'.mem_all h

theorem AssignOp.text_inj {op op' : AssignOp} (h : op.text = op'.text) : op = op' := by
  have hplain : ∀ a : Arithmetic, (BinaryOp.arithmetic a).text ++ "=" ≠ "=" := by
    intro a
    cases a <;> decide
  cases op with
  | plain =>
    cases op' with
    | plain => rfl
    | compound a' => exact absurd h.symm (hplain a')
  | compound a =>
    cases op' with
    | plain => exact absurd h (hplain a)
    | compound a' =>
      have htext : (BinaryOp.arithmetic a).text = (BinaryOp.arithmetic a').text := by
        have hlist := congrArg String.toList h
        rw [text, text, String.toList_append, String.toList_append] at hlist
        exact String.toList_inj.1 (List.append_cancel_right hlist)
      rw [BinaryOp.arithmetic.inj (BinaryOp.text_inj htext)]

theorem nat_repr_inj {n n' : Nat} (h : n.repr = n'.repr) : n = n' := by
  have hread := congrArg (fun text : String => Nat.ofDigitChars 10 text.toList 0) h
  simpa only [Nat.toList_repr, Nat.ofDigitChars_ten_toDigits] using hread

theorem minus_not_mem_repr (n : Nat) : '-' ∉ n.repr.toList := by
  intro h
  rw [Nat.toList_repr] at h
  cases Nat.isDigit_of_mem_toDigits (by decide) (by decide) h

theorem int32Text_inj {value value' : Int32} (h : int32Text value = int32Text value') :
    value = value' := by
  have hsign : ∀ n n' : Nat, n.repr ≠ "-" ++ n'.repr := by
    intro n n' heq
    refine minus_not_mem_repr n ?_
    rw [heq, String.toList_append]
    exact List.mem_cons_self ..
  rw [← Int32.toInt_inj]
  unfold int32Text at h
  split at h
  · rename_i n hn
    split at h
    · rename_i n' hn'
      rw [hn, hn', nat_repr_inj h]
    · exact absurd h (hsign _ _)
  · rename_i n hn
    split at h
    · exact absurd h.symm (hsign _ _)
    · rename_i n' hn'
      have hrepr := congrArg String.toList h
      rw [String.toList_append, String.toList_append, List.append_cancel_left_eq,
        String.toList_inj] at hrepr
      rw [hn, hn', Nat.succ.inj (nat_repr_inj hrepr)]

theorem booleanText_inj : ∀ {value value' : Bool}, booleanText value = booleanText value' →
    value = value' := by decide

theorem Literal.form_inj {value value' : Literal} (h : value.form = value'.form) :
    value = value' := by
  cases value with
  | int value =>
    cases value' <;> simp [Literal.form] at h
    rw [int32Text_inj h]
  | char value =>
    cases value' <;> simp [Literal.form] at h
    rw [h]
  | boolean value =>
    cases value' with
    | boolean value' =>
      have hvalue : booleanText value = booleanText value' := by simpa [Literal.form] using h
      rw [booleanText_inj hvalue]
    | _ => simp [Literal.form] at h
  | string value =>
    cases value' <;> simp [Literal.form, String.toList_inj] at h
    rw [h]
  | null => cases value' <;> simp [Literal.form] at h; rfl

/-- The tag of a node. -/
def Form.tag : Form → String
  | node tag _ => tag
  | _ => ""

/-- The tags of expressions of each kind. -/
def exprTags : List (List String) :=
  [["num", "char", "boolean", "string", "null"], ["binop"], ["this", "field", "method-call"],
    ["object-creation"], ["array-creation"]]

/-- The tag tells what kind of expression is printed. -/
theorem Expr.findIdx_tag (e : Expr) : exprTags.findIdx (·.contains e.form.tag) = e.ctorIdx := by
  cases e with
  | literal p value =>
    cases value with
    | _ => rfl
  | access c =>
    obtain ⟨head, links⟩ := c
    cases head with
    | _ => rfl
  | _ => rfl

theorem Expr.ctorIdx_eq {e e' : Expr} (h : e.form = e'.form) : e.ctorIdx = e'.ctorIdx := by
  rw [← e.findIdx_tag, h, e'.findIdx_tag]

mutual

theorem Expr.form_inj : ∀ e e' : Expr, e.form = e'.form → e.marked .none = e'.marked .none
  | .literal _ value, e', h => by
    have hkind := Expr.ctorIdx_eq h
    cases e' with
    | literal p' value' => simp [Literal.form_inj h]
    | _ => cases hkind
  | .binary op left right, e', h => by
    have hkind := Expr.ctorIdx_eq h
    cases e' with
    | binary op' left' right' =>
      obtain ⟨hop, hleft, hright⟩ :
          op.text = op'.text ∧ left.form = left'.form ∧ right.form = right'.form := by
        simpa [Expr.form] using h
      rw [Expr.marked, Expr.marked, BinaryOp.text_inj hop, Expr.form_inj left left' hleft,
        Expr.form_inj right right' hright]
    | _ => cases hkind
  | .access chain, e', h => by
    have hkind := Expr.ctorIdx_eq h
    cases e' with
    | access chain' => rw [Expr.marked, Expr.marked, Chain.form_inj chain chain' h]
    | _ => cases hkind
  | .newObject _ className args, e', h => by
    have hkind := Expr.ctorIdx_eq h
    cases e' with
    | newObject p' className' args' =>
      obtain ⟨rfl, hargs⟩ : className = className' ∧ exprForms args = exprForms args' := by
        simpa [Expr.form] using h
      rw [Expr.marked, Expr.marked, exprForms_inj args args' hargs]
      rfl
    | _ => cases hkind
  | .newArray _ element length, e', h => by
    have hkind := Expr.ctorIdx_eq h
    cases e' with
    | newArray p' element' length' =>
      obtain ⟨rfl, hlength⟩ : element = element' ∧ length.form = length'.form := by
        simpa [Expr.form] using h
      rw [Expr.marked, Expr.marked, Expr.form_inj length length' hlength]
      rfl
    | _ => cases hkind
termination_by structural e => e

theorem exprForms_inj : ∀ es es' : List Expr, exprForms es = exprForms es' →
    markedExprs .none es = markedExprs .none es'
  | [], [], _ => rfl
  | e :: es, e' :: es', h => by
    obtain ⟨he, hes⟩ := List.cons.inj h
    rw [markedExprs, markedExprs, Expr.form_inj e e' he, exprForms_inj es es' hes]
termination_by structural es => es

theorem Chain.form_inj : ∀ c c' : Chain, c.form = c'.form → c.marked .none = c'.marked .none
  | .mk (.this _) links, .mk head' links', h => by
    cases head' with
    | this p' =>
      have hlinks : linkForm? links = linkForm? links' := by
        simpa [Chain.form, toList_option_inj] using h
      rw [Chain.marked, Chain.marked, linkForm?_inj links links' hlinks]
      rfl
    | _ => simp [Chain.form] at h
  | .mk (.name _ name) links, .mk head' links', h => by
    cases head' with
    | name p' name' =>
      obtain ⟨rfl, hlinks⟩ : name = name' ∧ linkForm? links = linkForm? links' := by
        simpa [Chain.form, toList_option_inj] using h
      rw [Chain.marked, Chain.marked, linkForm?_inj links links' hlinks]
      rfl
    | _ => simp [Chain.form] at h
  | .mk (.call _ name args) links, .mk head' links', h => by
    cases head' with
    | call p' name' args' =>
      obtain ⟨rfl, hargs, hlinks⟩ : name = name' ∧ exprForms args = exprForms args' ∧
          linkForm? links = linkForm? links' := by simpa [Chain.form, toList_option_inj] using h
      rw [Chain.marked, Chain.marked, Head.marked, Head.marked, exprForms_inj args args' hargs,
        linkForm?_inj links links' hlinks]
      rfl
    | _ => simp [Chain.form] at h
termination_by structural c => c

theorem linkForm?_inj : ∀ ls ls' : List Link, linkForm? ls = linkForm? ls' →
    markedLinks .none ls = markedLinks .none ls'
  | [], [], _ => rfl
  | [], l' :: ls', h => by cases l' <;> simp [linkForm?] at h
  | .field _ name :: ls, ls', h => by
    match ls' with
    | [] => cases h
    | .field _ name' :: ls' =>
      obtain ⟨rfl, hlinks⟩ : name = name' ∧ linkForm? ls = linkForm? ls' := by
        simpa [linkForm?, toList_option_inj] using h
      rw [markedLinks, markedLinks, linkForm?_inj ls ls' hlinks]
      rfl
    | .call .. :: _ | .index .. :: _ => simp [linkForm?] at h
  | .call _ name args :: ls, ls', h => by
    match ls' with
    | [] => cases h
    | .call _ name' args' :: ls' =>
      obtain ⟨rfl, hargs, hlinks⟩ : name = name' ∧ exprForms args = exprForms args' ∧
          linkForm? ls = linkForm? ls' := by simpa [linkForm?, toList_option_inj] using h
      rw [markedLinks, markedLinks, Link.marked, Link.marked, exprForms_inj args args' hargs,
        linkForm?_inj ls ls' hlinks]
      rfl
    | .field .. :: _ | .index .. :: _ => simp [linkForm?] at h
  | .index _ index :: ls, ls', h => by
    match ls' with
    | [] => cases h
    | .index _ index' :: ls' =>
      obtain ⟨hindex, hlinks⟩ : index.form = index'.form ∧ linkForm? ls = linkForm? ls' := by
        simpa [linkForm?, toList_option_inj] using h
      rw [markedLinks, markedLinks, Link.marked, Link.marked, Expr.form_inj index index' hindex,
        linkForm?_inj ls ls' hlinks]
      rfl
    | .field .. :: _ | .call .. :: _ => simp [linkForm?] at h
termination_by structural ls => ls

end

theorem Assignment.forms_inj {a a' : Assignment} (h : a.forms = a'.forms) :
    a.marked .none = a'.marked .none := by
  obtain ⟨hop, htarget, hvalue⟩ : a.op.text = a'.op.text ∧ a.target.form = a'.target.form ∧
      a.value.form = a'.value.form := by simpa [forms] using h
  rw [marked, marked, AssignOp.text_inj hop, Chain.form_inj _ _ htarget, Expr.form_inj _ _ hvalue]

theorem marked_eq_of_form {e e' : Option Expr} (h : e.map Expr.form = e'.map Expr.form) :
    e.map (Expr.marked .none) = e'.map (Expr.marked .none) := by
  cases e with
  | none =>
    obtain rfl : e' = none := by simpa using h.symm
    rfl
  | some e =>
    obtain ⟨e', rfl, he⟩ := Option.map_eq_some_iff.1 h.symm
    exact congrArg some (Expr.form_inj e e' he.symm)

theorem Variable.form_inj {v v' : Variable} (h : v.form = v'.form) :
    v.marked .none = v'.marked .none := by
  obtain ⟨p, type, name, value⟩ := v
  obtain ⟨p', type', name', value'⟩ := v'
  obtain ⟨rfl, htype, hvalue⟩ : name = name' ∧ type.form = type'.form ∧
      value.map Expr.form = value'.map Expr.form := by
    simpa [form, toList_option_inj] using h
  obtain ⟨hname, harray⟩ := Form.word.inj htype
  obtain rfl : type = type' := by
    cases type
    cases type'
    simp_all
  rw [marked, marked, marked_eq_of_form hvalue]
  rfl

theorem Action.form_inj {a a' : Action} (h : a.form = a'.form) :
    a.marked .none = a'.marked .none := by
  cases a with
  | assignment a =>
    cases a' with
    | assignment a' => rw [marked, marked, Assignment.forms_inj (Form.node.inj h).2]
    | call c' => simp [form] at h
  | call c =>
    cases a' with
    | assignment a' => simp [form] at h
    | call c' => rw [marked, marked, Chain.form_inj c c' (by simpa [form] using h)]

theorem Jump.form_inj {j j' : Jump} (h : j.form = j'.form) : j.marked .none = j'.marked .none := by
  cases j with
  | return_ value =>
    cases j' with
    | return_ value' =>
      have hvalue : value.map Expr.form = value'.map Expr.form := by
        simpa [form, toList_option_inj] using h
      rw [marked, marked, marked_eq_of_form hvalue]
    | _ => simp [form] at h
  | break_ =>
    cases j' with
    | break_ => rfl
    | _ => simp [form] at h
  | continue_ =>
    cases j' with
    | continue_ => rfl
    | _ => simp [form] at h

theorem ForInit.forms_inj {init init' : ForInit} (h : init.forms = init'.forms) :
    init.marked .none = init'.marked .none := by
  cases init with
  | declaration v =>
    cases init' with
    | declaration v' => rw [marked, marked, Variable.form_inj (by simpa [forms] using h)]
    | assignment a' => simp [forms, Assignment.forms] at h
  | assignment a =>
    cases init' with
    | declaration v' => simp [forms, Assignment.forms] at h
    | assignment a' => rw [marked, marked, Assignment.forms_inj (by simpa [forms] using h)]

theorem head?_clause_ne {α : Type} {mark other : Form} {g : α → Form} {o : Option α}
    {X : List Form} (hmark : mark ≠ other) (hX : X.head? ≠ some other) :
    ((o.toList.map fun a => [mark, g a]).flatten ++ X).head? ≠ some other := by
  cases o with
  | none => exact hX
  | some a => exact fun h => hmark (Option.some.inj h)

/-- A clause with a mark in front of its form. -/
theorem clause_inj {α : Type} {mark : Form} {g : α → Form} {o o' : Option α} {X X' : List Form}
    (hX : X.head? ≠ some mark) (hX' : X'.head? ≠ some mark)
    (h : (o.toList.map fun a => [mark, g a]).flatten ++ X =
      (o'.toList.map fun a => [mark, g a]).flatten ++ X') : o.map g = o'.map g ∧ X = X' := by
  cases o with
  | none =>
    cases o' with
    | none => exact ⟨rfl, h⟩
    | some a' =>
      obtain rfl : X = mark :: g a' :: X' := h
      exact absurd rfl hX
  | some a =>
    cases o' with
    | none =>
      obtain rfl : mark :: g a :: X = X' := h
      exact absurd rfl hX'
    | some a' =>
      obtain ⟨-, ha, hrest⟩ : mark = mark ∧ g a = g a' ∧ X = X' := by simpa using h
      exact ⟨congrArg some ha, hrest⟩

theorem ForInit.forms_eq (i : ForInit) : ∃ tail, i.forms = .plain ":init" :: tail := by
  cases i with
  | _ => exact ⟨_, rfl⟩

theorem init_inj {init init' : Option ForInit} {X X' : List Form}
    (hX : X.head? ≠ some (.plain ":init")) (hX' : X'.head? ≠ some (.plain ":init"))
    (h : (init.toList.map ForInit.forms).flatten ++ X =
      (init'.toList.map ForInit.forms).flatten ++ X') :
    init.map (ForInit.marked .none) = init'.map (ForInit.marked .none) ∧ X = X' := by
  cases init with
  | none =>
    cases init' with
    | none => exact ⟨rfl, h⟩
    | some i' =>
      obtain ⟨tail, htail⟩ := i'.forms_eq
      simp only [Option.toList_some, List.map_singleton, htail, List.flatten_singleton] at h
      obtain rfl : X = .plain ":init" :: (tail ++ X') := h
      exact absurd rfl hX
  | some i =>
    cases init' with
    | none =>
      obtain ⟨tail, htail⟩ := i.forms_eq
      simp only [Option.toList_some, List.map_singleton, htail, List.flatten_singleton] at h
      obtain rfl : .plain ":init" :: (tail ++ X) = X' := h
      exact absurd rfl hX'
    | some i' =>
      simp only [Option.toList_some, List.map_singleton, List.flatten_singleton] at h
      obtain ⟨hforms, hrest⟩ : i.forms = i'.forms ∧ X = X' := by
        cases i with
        | declaration v =>
          cases i' with
          | declaration v' => simpa [ForInit.forms] using h
          | assignment a' => simp [ForInit.forms, Assignment.forms, Variable.form] at h
        | assignment a =>
          cases i' with
          | declaration v' => simp [ForInit.forms, Assignment.forms, Variable.form] at h
          | assignment a' => simpa [ForInit.forms, Assignment.forms, and_assoc] using h
      exact ⟨congrArg some (ForInit.forms_inj hforms), hrest⟩

theorem clauses_inj {init init' : Option ForInit} {condition condition' : Option Expr}
    {update update' : Option Action}
    (h : (clauses init condition update).flatten = (clauses init' condition' update').flatten) :
    init.map (ForInit.marked .none) = init'.map (ForInit.marked .none) ∧
      condition.map (Expr.marked .none) = condition'.map (Expr.marked .none) ∧
      update.map (Action.marked .none) = update'.map (Action.marked .none) := by
  have hbody : ∀ {mark : Form}, mark ≠ .plain ":body" →
      [[Form.plain ":body"]].flatten.head? ≠ some mark :=
    fun hne heq => hne (Option.some.inj heq).symm
  simp only [clauses, List.flatten_append, List.append_assoc] at h
  obtain ⟨hinit, h⟩ := init_inj
    (head?_clause_ne (by simp) (head?_clause_ne (by simp) (hbody (by simp))))
    (head?_clause_ne (by simp) (head?_clause_ne (by simp) (hbody (by simp)))) h
  obtain ⟨hcondition, h⟩ := clause_inj (head?_clause_ne (by simp) (hbody (by simp)))
    (head?_clause_ne (by simp) (hbody (by simp))) h
  obtain ⟨hupdate, -⟩ := clause_inj (hbody (by simp)) (hbody (by simp)) h
  refine ⟨hinit, marked_eq_of_form hcondition, ?_⟩
  cases update with
  | none =>
    obtain rfl : update' = none := by simpa using hupdate.symm
    rfl
  | some a =>
    obtain ⟨a', rfl, ha⟩ := Option.map_eq_some_iff.1 hupdate.symm
    exact congrArg some (Action.form_inj ha.symm)

/-- The tags of statements of each kind. -/
def statementTags : List (List String) :=
  [["stmt-block"], ["if"], ["while"], ["for"], ["switch"], ["return", "break", "continue"],
    ["assignment", "method-call-stmt"], ["var-decl"]]

/-- The tag tells what kind of statement is printed. -/
theorem Statement.findIdx_tag (s : Statement) :
    statementTags.findIdx (·.contains s.form.tag) = s.ctorIdx := by
  cases s with
  | block b =>
    cases b
    rfl
  | conditional p e body otherwise =>
    cases otherwise with
    | _ => rfl
  | switch p id e cases_ default_ =>
    cases default_ with
    | _ => rfl
  | jump p j =>
    cases j with
    | _ => rfl
  | action a =>
    cases a with
    | _ => rfl
  | _ => rfl

theorem Statement.ctorIdx_eq {s s' : Statement} (h : s.form = s'.form) :
    s.ctorIdx = s'.ctorIdx := by
  rw [← s.findIdx_tag, h, s'.findIdx_tag]

mutual

theorem Statement.form_inj : ∀ s s' : Statement, s.form = s'.form →
    s.marked .none = s'.marked .none
  | .block body, s', h => by
    have hkind := Statement.ctorIdx_eq h
    cases s' with
    | block body' => rw [Statement.marked, Statement.marked, Block.form_inj body body' h]
    | _ => cases hkind
  | .conditional _ condition body none, s', h => by
    have hkind := Statement.ctorIdx_eq h
    cases s' with
    | conditional p' condition' body' otherwise' =>
      cases otherwise' with
      | none =>
        obtain ⟨hcondition, hbody⟩ : condition.form = condition'.form ∧ body.form = body'.form := by
          simpa [Statement.form] using h
        rw [Statement.marked, Statement.marked, Expr.form_inj condition condition' hcondition,
          Statement.form_inj body body' hbody]
        rfl
      | some s => simp [Statement.form] at h
    | _ => cases hkind
  | .conditional _ condition body (some otherwise), s', h => by
    have hkind := Statement.ctorIdx_eq h
    cases s' with
    | conditional p' condition' body' otherwise' =>
      cases otherwise' with
      | none => simp [Statement.form] at h
      | some otherwise' =>
        obtain ⟨hcondition, hbody, hother⟩ : condition.form = condition'.form ∧
            body.form = body'.form ∧ otherwise.form = otherwise'.form := by
          simpa [Statement.form] using h
        rw [Statement.marked, Statement.marked, Expr.form_inj condition condition' hcondition,
          Statement.form_inj body body' hbody, markedOtherwise, markedOtherwise,
          Statement.form_inj otherwise otherwise' hother]
        rfl
    | _ => cases hkind
  | .whileLoop _ condition body, s', h => by
    have hkind := Statement.ctorIdx_eq h
    cases s' with
    | whileLoop p' condition' body' =>
      obtain ⟨hcondition, hbody⟩ : condition.form = condition'.form ∧ body.form = body'.form := by
        simpa [Statement.form] using h
      rw [Statement.marked, Statement.marked, Expr.form_inj condition condition' hcondition,
        Statement.form_inj body body' hbody]
      rfl
    | _ => cases hkind
  | .forLoop _ _ init condition update body, s', h => by
    have hkind := Statement.ctorIdx_eq h
    cases s' with
    | forLoop p' id' init' condition' update' body' =>
      obtain ⟨hclauses, hbody⟩ : (clauses init condition update).flatten =
          (clauses init' condition' update').flatten ∧ body.form = body'.form := by
        simpa [Statement.form] using h
      obtain ⟨hinit, hcondition, hupdate⟩ := clauses_inj hclauses
      rw [Statement.marked, Statement.marked, hinit, hcondition, hupdate,
        Statement.form_inj body body' hbody]
      rfl
    | _ => cases hkind
  | .switch _ _ selector cases none, s', h => by
    have hkind := Statement.ctorIdx_eq h
    cases s' with
    | switch p' id' selector' cases' default' =>
      cases default' with
      | none =>
        obtain ⟨hselector, hcases⟩ : selector.form = selector'.form ∧
            caseForms cases = caseForms cases' := by simpa [Statement.form] using h
        rw [Statement.marked, Statement.marked, Expr.form_inj selector selector' hselector,
          caseForms_inj cases cases' hcases]
        rfl
      | some b => simp [Statement.form] at h
    | _ => cases hkind
  | .switch _ _ selector cases (some default_), s', h => by
    have hkind := Statement.ctorIdx_eq h
    cases s' with
    | switch p' id' selector' cases' default' =>
      cases default' with
      | none => simp [Statement.form] at h
      | some default' =>
        obtain ⟨hselector, hcases, hdefault⟩ : selector.form = selector'.form ∧
            caseForms cases = caseForms cases' ∧ default_.itemForms = default'.itemForms := by
          simpa [Statement.form] using h
        rw [Statement.marked, Statement.marked, Expr.form_inj selector selector' hselector,
          caseForms_inj cases cases' hcases, markedDefault, markedDefault,
          Block.itemForms_inj default_ default' hdefault]
        rfl
    | _ => cases hkind
  | .jump _ jump, s', h => by
    have hkind := Statement.ctorIdx_eq h
    cases s' with
    | jump p' jump' =>
      rw [Statement.marked, Statement.marked, Jump.form_inj h]
      rfl
    | _ => cases hkind
  | .action action, s', h => by
    have hkind := Statement.ctorIdx_eq h
    cases s' with
    | action action' => rw [Statement.marked, Statement.marked, Action.form_inj h]
    | _ => cases hkind
  | .declaration v, s', h => by
    have hkind := Statement.ctorIdx_eq h
    cases s' with
    | declaration v' => rw [Statement.marked, Statement.marked, Variable.form_inj h]
    | _ => cases hkind
termination_by structural s => s

theorem statementForms_inj : ∀ ss ss' : List Statement, statementForms ss = statementForms ss' →
    markedStatements .none ss = markedStatements .none ss'
  | [], [], _ => rfl
  | s :: ss, s' :: ss', h => by
    obtain ⟨hs, hss⟩ := List.cons.inj h
    rw [markedStatements, markedStatements, Statement.form_inj s s' hs,
      statementForms_inj ss ss' hss]
termination_by structural ss => ss

theorem Block.itemForms_inj : ∀ b b' : Block, b.itemForms = b'.itemForms →
    b.marked .none = b'.marked .none
  | .mk _ _ ss, .mk _ _ ss', h => by
    rw [Block.marked, Block.marked, statementForms_inj ss ss' h]
    rfl
termination_by structural b => b

theorem Block.form_inj : ∀ b b' : Block, b.form = b'.form → b.marked .none = b'.marked .none
  | .mk _ _ ss, .mk _ _ ss', h => by
    rw [Block.marked, Block.marked, statementForms_inj ss ss' (Form.node.inj h).2]
    rfl
termination_by structural b => b

theorem caseForms_inj : ∀ cs cs' : List Case, caseForms cs = caseForms cs' →
    markedCases .none cs = markedCases .none cs'
  | [], [], _ => rfl
  | [], .mk _ _ _ _ :: _, h => by cases h
  | .mk _ _ _ _ :: _, [], h => by cases h
  | .mk _ _ label body :: cs, .mk _ _ label' body' :: cs', h => by
    obtain ⟨⟨hlabel, hbody⟩, hcs⟩ : (label.form = label'.form ∧ body.itemForms = body'.itemForms) ∧
        caseForms cs = caseForms cs' := by simpa [caseForms] using h
    rw [markedCases, markedCases, Case.marked, Case.marked, Literal.form_inj hlabel,
      Block.itemForms_inj body body' hbody, caseForms_inj cs cs' hcs]
    rfl
termination_by structural cs => cs

end

/-! ## Forms are the same under other marks -/

section Marked

variable (m : Marks)

mutual

theorem Expr.form_marked : ∀ e : Expr, (e.marked m).form = e.form
  | .literal _ _ => rfl
  | .binary _ left right => by
    rw [Expr.marked, Expr.form, Expr.form, left.form_marked, right.form_marked]
  | .access chain => chain.form_marked
  | .newObject _ _ args => by rw [Expr.marked, Expr.form, Expr.form, exprForms_marked args]
  | .newArray _ _ length => by rw [Expr.marked, Expr.form, Expr.form, length.form_marked]

theorem exprForms_marked : ∀ es : List Expr, exprForms (markedExprs m es) = exprForms es
  | [] => rfl
  | e :: es => by rw [markedExprs, exprForms, exprForms, e.form_marked, exprForms_marked es]

theorem Chain.form_marked : ∀ c : Chain, (c.marked m).form = c.form
  | .mk (.this _) links => by
    rw [Chain.marked, Head.marked, Chain.form, Chain.form, linkForm?_marked links]
  | .mk (.name _ _) links => by
    rw [Chain.marked, Head.marked, Chain.form, Chain.form, linkForm?_marked links]
  | .mk (.call _ _ args) links => by
    rw [Chain.marked, Head.marked, Chain.form, Chain.form, linkForm?_marked links,
      exprForms_marked args]

theorem linkForm?_marked : ∀ ls : List Link, linkForm? (markedLinks m ls) = linkForm? ls
  | [] => rfl
  | .field _ _ :: ls => by
    rw [markedLinks, Link.marked, linkForm?, linkForm?, linkForm?_marked ls]
  | .call _ _ args :: ls => by
    rw [markedLinks, Link.marked, linkForm?, linkForm?, linkForm?_marked ls, exprForms_marked args]
  | .index _ index :: ls => by
    rw [markedLinks, Link.marked, linkForm?, linkForm?, linkForm?_marked ls, index.form_marked]

end

theorem map_form_marked (e : Option Expr) :
    (e.map (Expr.marked m)).map Expr.form = e.map Expr.form := by
  cases e with
  | none => rfl
  | some e => exact congrArg some (e.form_marked m)

theorem Variable.form_marked (v : Variable) : (v.marked m).form = v.form := by
  rw [marked, form, form, map_form_marked]

theorem Assignment.forms_marked (a : Assignment) : (a.marked m).forms = a.forms := by
  rw [marked, forms, forms, Chain.form_marked, Expr.form_marked]

theorem Action.form_marked (a : Action) : (a.marked m).form = a.form := by
  cases a with
  | assignment a => rw [marked, form, form, Assignment.forms_marked]
  | call chain => rw [marked, form, form, Chain.form_marked]

theorem Jump.form_marked (j : Jump) : (j.marked m).form = j.form := by
  cases j with
  | return_ value => rw [marked, form, form, map_form_marked]
  | break_ => rfl
  | continue_ => rfl

theorem ForInit.forms_marked (i : ForInit) : (i.marked m).forms = i.forms := by
  cases i with
  | declaration v => rw [marked, forms, forms, Variable.form_marked]
  | assignment a => rw [marked, forms, forms, Assignment.forms_marked]

theorem clauses_marked (init : Option ForInit) (condition : Option Expr) (update : Option Action) :
    clauses (init.map (ForInit.marked m)) (condition.map (Expr.marked m))
      (update.map (Action.marked m)) = clauses init condition update := by
  have hinit : (init.map (ForInit.marked m)).toList.map ForInit.forms =
      init.toList.map ForInit.forms := by
    cases init with
    | none => rfl
    | some i => exact congrArg (fun fs => [fs]) (i.forms_marked m)
  have hcondition : ∀ g : Form → List Form,
      (condition.map (Expr.marked m)).toList.map (fun e => g e.form) =
        condition.toList.map fun e => g e.form := by
    intro g
    cases condition with
    | none => rfl
    | some e => exact congrArg (fun f => [g f]) (e.form_marked m)
  have hupdate : ∀ g : Form → List Form,
      (update.map (Action.marked m)).toList.map (fun a => g a.form) =
        update.toList.map fun a => g a.form := by
    intro g
    cases update with
    | none => rfl
    | some a => exact congrArg (fun f => [g f]) (a.form_marked m)
  rw [clauses, clauses, hinit, hcondition fun f => [.plain ":condition", f],
    hupdate fun f => [.plain ":update", f]]

mutual

theorem Statement.form_marked : ∀ s : Statement, (s.marked m).form = s.form
  | .block body => body.form_marked
  | .conditional _ condition body none => by
    rw [Statement.marked, markedOtherwise, Statement.form, Statement.form, condition.form_marked,
      body.form_marked]
  | .conditional _ condition body (some otherwise) => by
    rw [Statement.marked, markedOtherwise, Statement.form, Statement.form, condition.form_marked,
      body.form_marked, otherwise.form_marked]
  | .whileLoop _ condition body => by
    rw [Statement.marked, Statement.form, Statement.form, condition.form_marked, body.form_marked]
  | .forLoop _ _ init condition update body => by
    rw [Statement.marked, Statement.form, Statement.form, clauses_marked, body.form_marked]
  | .switch _ _ selector cases none => by
    rw [Statement.marked, markedDefault, Statement.form, Statement.form, selector.form_marked,
      caseForms_marked cases]
  | .switch _ _ selector cases (some default_) => by
    rw [Statement.marked, markedDefault, Statement.form, Statement.form, selector.form_marked,
      caseForms_marked cases, default_.itemForms_marked]
  | .jump _ jump => jump.form_marked m
  | .action action => action.form_marked m
  | .declaration v => v.form_marked m

theorem statementForms_marked : ∀ ss : List Statement,
    statementForms (markedStatements m ss) = statementForms ss
  | [] => rfl
  | s :: ss => by
    rw [markedStatements, statementForms, statementForms, s.form_marked, statementForms_marked ss]

theorem Block.itemForms_marked : ∀ b : Block, (b.marked m).itemForms = b.itemForms
  | .mk _ _ ss => by rw [Block.marked, Block.itemForms, Block.itemForms, statementForms_marked ss]

theorem Block.form_marked : ∀ b : Block, (b.marked m).form = b.form
  | .mk _ _ ss => by rw [Block.marked, Block.form, Block.form, statementForms_marked ss]

theorem caseForms_marked : ∀ cs : List Case, caseForms (markedCases m cs) = caseForms cs
  | [] => rfl
  | .mk _ _ _ body :: cs => by
    rw [markedCases, Case.marked, caseForms, caseForms, body.itemForms_marked, caseForms_marked cs]

end

end Marked

/-! ## What is printed tells the tree -/

/-- Expressions whose names are words are printed in different ways unless they are the same. -/
theorem Expr.print_inj {e e' : Expr} (h : e.form.Plain) (h' : e'.form.Plain)
    (heq : printExpr e = printExpr e') : e.marked .none = e'.marked .none := by
  refine Expr.form_inj e e' (Form.text_inj h h' ?_)
  rw [← e.toList_print h, ← e'.toList_print h', heq]

theorem Statement.print_inj {s s' : Statement} (h : s.form.Plain) (h' : s'.form.Plain)
    (heq : printStatement s = printStatement s') : s.marked .none = s'.marked .none := by
  refine Statement.form_inj s s' (Form.text_inj h h' ?_)
  rw [← s.toList_print h, ← s'.toList_print h', heq]

end Javelet
