import Javelet.Proofs.Assembly.Kinds
import Javelet.Proofs.Lowering.Labels
import Javelet.Proofs.Lowering.Sinks
import Javelet.Proofs.Types.Overloads

/-!
# The kinds of cells along lowered code

The code of an expression leaves one cell, of the kind of its type. The descriptors in it are written
for the declared types of members and of parameters, and the instructions are chosen by the types of
the operands; both tell the kinds of the cells. Arguments need not have the types of the parameters,
but what may be stored in a parameter is of its kind.
-/
namespace Javelet

namespace Assembly

/-! ## Kinds of types -/

variable {ty : Ty} {params : List Ty}

theorem Cell.ofTy_of_isReference (h : ty.isReference = true) : Cell.ofTy ty = .reference := by
  rw [Ty.isReference, Bool.and_eq_true, Bool.not_eq_true'] at h
  rw [Cell.ofTy, h.1]
  rfl

theorem Cell.ofTy_of_isInteger (h : ty.isInteger = true) : Cell.ofTy ty = .int := by
  rw [Cell.ofTy, if_pos h]

theorem isReference_of_isArray (h : ty.isArray = true) : ty.isReference = true := by
  simp [Ty.isReference, Ty.isInteger, Ty.isVoid, h]

theorem Element.cell_ofTy (name : String) :
    (Element.ofTy (.plain name)).cell = Cell.ofTy (.plain name) := by
  by_cases hint : name = "int"
  · subst hint
    rfl
  by_cases hchar : name = "char"
  · subst hchar
    rfl
  by_cases hboolean : name = "boolean"
  · subst hboolean
    rfl
  simp [Element.ofTy, Ty.int, Ty.char, Ty.boolean, Ty.plain, Cell.ofTy, Ty.isInteger, Element.cell,
    hint, hchar, hboolean]

theorem ofDescriptor?_descriptor (h : ty.IsValue) :
    Cell.ofDescriptor? (descriptor ty) = some (.ofTy ty) := by
  obtain ⟨name, isArray⟩ := ty
  cases isArray with
  | true => simp [descriptor, Cell.ofDescriptor?, Cell.ofTy, Ty.isInteger]
  | false =>
    have hvoid : name ≠ "void" := h.ne_void
    by_cases hint : name = "int"
    · subst hint
      rfl
    by_cases hboolean : name = "boolean"
    · subst hboolean
      rfl
    by_cases hchar : name = "char"
    · subst hchar
      rfl
    simp [descriptor, plainDescriptor, classDescriptor, Cell.ofDescriptor?, Cell.ofTy,
      Ty.isInteger, hvoid, hint, hboolean, hchar]

theorem ofDescriptor?_printDescriptor (ty : Ty) :
    Cell.ofDescriptor? (printDescriptor ty) = some (.ofTy ty) := by
  unfold printDescriptor
  split
  · rename_i hinteger
    refine ofDescriptor?_descriptor (valueName_of_mem ?_)
    have hname : (Ty.plain ty.name).isInteger = true := by
      rw [Ty.isInteger, Bool.and_eq_true] at hinteger
      exact hinteger.2
    exact Types.Table.mem_builtins_of_isInteger hname
  · rename_i hinteger
    have hcell : Cell.ofTy ty = .reference := by rw [Cell.ofTy, if_neg hinteger]
    rw [hcell]
    split
    · decide
    · decide

theorem resultKinds?_descriptor (h : ty.IsResult) :
    resultKinds? (descriptor ty) = some (if ty.isVoid then [] else [.ofTy ty]) := by
  rcases h with rfl | h
  · rfl
  · have hkind := ofDescriptor?_descriptor h
    have hne : descriptor ty ≠ "V" := by
      intro heq
      rw [heq] at hkind
      cases hkind
    rw [resultKinds?, if_neg hne, hkind, h.isVoid]
    rfl

theorem argumentKinds?_eq (h : ∀ t ∈ params, t.IsValue) :
    argumentKinds? params = some (params.map Cell.ofTy).reverse := by
  induction params with
  | nil => rfl
  | cons param params ih =>
    rw [List.forall_mem_cons] at h
    rw [argumentKinds?, ofDescriptor?_descriptor h.1, ih h.2, List.map_cons, List.reverse_cons]
    rfl

theorem callKinds?_eq (h : ∀ t ∈ params, t.IsValue) (hty : ty.IsResult) :
    callKinds? params ty = some ((params.map Cell.ofTy).reverse ++ [Cell.reference],
      if ty.isVoid then [] else [.ofTy ty]) := by
  rw [callKinds?, argumentKinds?_eq h, resultKinds?_descriptor hty]
  rfl

end Assembly

namespace Types

/-- A method that is chosen for arguments has parameters of their kinds. -/
theorem map_ofTy_of_chosen {t : Table} {name : String} {args : List Ty} {m : MethodInfo}
    (hm : m.WellNamed) (hn : PlainName name) (ha : ∀ a ∈ args, a.IsValue)
    (h : Chosen t name args m) :
    m.params.map Assembly.Cell.ofTy = args.map Assembly.Cell.ofTy := by
  rcases h with hkey | hfit
  · rw [(signatureText_inj hm.name hn hm.params ha hkey).2]
  · have hsame : List.Forall₂ (fun p a => Assembly.Cell.ofTy p = Assembly.Cell.ofTy a) m.params
        args := by
      refine (Table.accepts_iff.1 hfit).imp fun p a hassign => ?_
      rw [Assembly.Cell.ofTy, Assembly.Cell.ofTy, Table.isInteger_of_isAssignable hassign]
    rw [← List.forall₂_eq_eq_eq, List.forall₂_map_left_iff, List.forall₂_map_right_iff]
    exact hsame

end Types

namespace Lowering

open Assembly

/-! ## Expressions -/

/-- A storage keeps what is declared: the slot of a local variable and the field of a property are of
the kinds of their types, and slot 0 keeps a reference, to the receiver or to the arguments of the
program. -/
structure Env.KeptBy (env : Env) (m : Storage) : Prop where
  first : m.slot 0 = .reference
  variable_ : ∀ name l, env.local? name = some l → m.slot l.slot = .ofTy l.type
  property : ∀ className name owner info,
    env.table.findProperty className name = some (owner, info) →
      m.field owner.name name = .ofTy info.type

/-- The class around is one of objects, and so is every class that has constructors. -/
structure Env.Objects (env : Env) : Prop where
  self : Cell.ofTy env.thisType = .reference
  created : ∀ name args info, env.table.resolveConstructor name args = some info →
    Cell.ofTy (.plain name) = .reference

variable {env : Env} {m : Storage} {first next : Label} {p : Position} {shape : Shape}

theorem turns_load (hm : env.KeptBy m) {name : String} {l : Local}
    (hl : env.local? name = some l) : l.load.Turns m [] [.ofTy l.type] :=
  .fixed (if_pos (hm.variable_ name l hl))

theorem leads_loadThis (hm : env.KeptBy m) :
    Leads m [] shape [.op .loadThis] (.reference :: shape) := by
  have hload : Instruction.loadThis.kinds? m = some ([], [.reference]) := if_pos hm.first
  exact .plain [] [.reference] (.fixed hload) rfl rfl

theorem leads_getField (henv : env.WellNamed) (hm : env.KeptBy m) {className name : String}
    {owner : Types.TypeInfo} {info : Types.PropertyInfo}
    (hp : env.table.findProperty className name = some (owner, info)) :
    Leads m [] (.reference :: shape) [.op (.getField owner.name name info.type)]
      (.ofTy info.type :: shape) := by
  have hvalue := (henv.legible_getField hp).2.2
  refine .plain [.reference] [.ofTy info.type] (.fixed ?_) rfl rfl
  rw [Instruction.kinds?, ofDescriptor?_descriptor hvalue]
  exact if_pos (hm.property _ _ _ _ hp)

/-- Both ways through a choice leave one integer. -/
theorem leads_choice (b : Bool) {other : Label} (finish : Label) {pre : Segment}
    (h : Leads m [(other, shape)] shape pre shape) :
    Leads m [] shape (pre ++ choice b other finish) (.int :: shape) := by
  obtain ⟨landings, hpre⟩ := h
  have hchoice : Passes m [] (some shape) (choice b other finish) (some (.int :: shape))
      [(other, shape), (finish, .int :: shape)] := by
    have hpush : ∀ b, (Instruction.pushBoolean b).Turns m [] [.int] := fun b => .fixed rfl
    have hgoto : (Instruction.goto finish).Turns m [] [] := .fixed rfl
    refine @Passes.op _ _ _ _ [] _ _ _ _ (hpush b) rfl nofun ?_
    refine @Passes.op _ _ _ _ [] _ _ _ _ hgoto rfl ?_ ?_
    · intro l hl
      cases hl
      exact List.mem_cons_of_mem _ List.mem_cons_self
    · refine .alternative (.label (.inl rfl) ?_)
      exact @Passes.op _ _ _ _ [] _ _ _ _ (hpush !b) rfl nofun (.label (.inr rfl) .nil)
  refine ⟨_, (hpre.mono ?_).append hchoice⟩
  exact List.forall_mem_singleton.2 List.mem_cons_self

/-- A comparison takes operands of the kinds of their types. -/
theorem turns_comparisonJump {op : BinaryOp} {left right : Ty} {target : Label} {i : Instruction}
    (h : comparisonJump? op left right target = some i) :
    i.Turns m [.ofTy right, .ofTy left] [] ∧ i.isReturn = false ∧ i.isGoto = false ∧
      i.target? = some target := by
  unfold comparisonJump? at h
  split at h
  · rename_i hint
    rw [Bool.and_eq_true] at hint
    cases h
    rw [Cell.ofTy_of_isInteger hint.1, Cell.ofTy_of_isInteger hint.2]
    exact ⟨.fixed rfl, rfl, rfl, rfl⟩
  split at h
  · rename_i href
    rw [Bool.and_eq_true] at href
    rw [Cell.ofTy_of_isReference href.1, Cell.ofTy_of_isReference href.2]
    split at h
    · cases h
      exact ⟨.fixed rfl, rfl, rfl, rfl⟩
    · cases h
      exact ⟨.fixed rfl, rfl, rfl, rfl⟩
    · cases h
  · cases h

theorem leads_shortcut (op : Connective) (l : Label) :
    Leads m [(l, shape)] (.int :: shape) [.op (shortcut op l)] shape := by
  cases op with
  | and =>
    exact .jump [.int] [] (.fixed rfl) rfl rfl rfl List.mem_cons_self
  | or =>
    exact .jump [.int] [] (.fixed rfl) rfl rfl rfl List.mem_cons_self

/-- The code of an expression leaves one cell, of the kind of the type. -/
def LeavesKind (env : Env) (m : Storage) (e : Expr) : Prop :=
  ∀ {first next v}, Yields (expr env e) first v next →
    ∀ shape, Leads m [] shape v.code (.ofTy v.type :: shape)

theorem arguments_kinds {args : List Expr} {as : Arguments}
    (ih : ∀ e ∈ args, LeavesKind env m e) (h : Yields (arguments env args) first as next)
    (shape : Shape) : Leads m [] shape as.code ((as.types.map Cell.ofTy).reverse ++ shape) := by
  induction args generalizing first as shape with
  | nil =>
    simp only [arguments, yields_pure] at h
    obtain ⟨rfl, rfl⟩ := h
    exact .nil
  | cons e rest ihrest =>
    obtain ⟨v, vs, middle, hv, hvs, rfl⟩ := yields_arguments_cons.1 h
    have hfirst := ih e (List.mem_cons_self ..) hv shape
    have hrest := ihrest (fun e he => ih e (List.mem_cons_of_mem _ he)) hvs (.ofTy v.type :: shape)
    rw [List.map_cons, List.reverse_cons, List.append_assoc]
    exact hfirst.append hrest

/-- The kinds of the cells that a receiver takes on the stack. -/
def Receiver.kinds : Receiver → List Cell
  | .system => []
  | .printStream => [.reference]
  | .value ty => if ty.isVoid then [] else [.ofTy ty]

theorem Receiver.kinds_value {ty : Ty} (h : ty.IsValue) :
    (Receiver.value ty).kinds = [.ofTy ty] := by
  simp [Receiver.kinds, h.isVoid]

theorem Receiver.kinds_reference {ty : Ty} (h : ty.isReference = true) :
    (Receiver.value ty).kinds = [.reference] := by
  rw [Receiver.kinds, if_neg (by simp [isVoid_of_isReference h]), Cell.ofTy_of_isReference h]

/-- Arguments and a call of a method that is chosen for them. -/
theorem leads_call {t : Types.Table} {info : Types.MethodInfo} {name : String} {args : Arguments}
    {i : Instruction} {returns : Ty} (hinfo : info.WellNamed) (hn : PlainName name)
    (hargs : ∀ a ∈ args.types, a.IsValue) (hchosen : Types.Chosen t name args.types info)
    (hcode : ∀ shape, Leads m [] shape args.code ((args.types.map Cell.ofTy).reverse ++ shape))
    (hi : i.kinds? m = callKinds? info.params returns) (hreturns : returns.IsResult)
    (hreturn : i.isReturn = false) (ht : i.target? = none) (shape : Shape) :
    Leads m [] (.reference :: shape) (args.code ++ [Item.op i])
      ((Receiver.value returns).kinds ++ shape) := by
  have hcall : Leads m [] ((args.types.map Cell.ofTy).reverse ++ [Cell.reference] ++ shape)
      [.op i] ((if returns.isVoid then [] else [Cell.ofTy returns]) ++ shape) := by
    refine .plain _ _ (.fixed ?_) hreturn ht
    rw [hi, callKinds?_eq hinfo.params hreturns,
      Types.map_ofTy_of_chosen hinfo hn hargs hchosen]
  rw [List.append_assoc] at hcall
  exact (hcode (.reference :: shape)).append hcall

theorem call_kinds (henv : env.WellNamed) {receiver : Ty} {name : String} {args : Arguments}
    {r : Reached} (hargs : ∀ a ∈ args.types, a.IsValue)
    (hcode : ∀ shape, Leads m [] shape args.code ((args.types.map Cell.ofTy).reverse ++ shape))
    (h : Yields (call env receiver name p args) first r next) :
    Leads m [] (.reference :: shape) r.code (r.receiver.kinds ++ shape) := by
  obtain ⟨owner, info, hfound, -, -, rfl, rfl⟩ := yields_call.1 h
  obtain ⟨-, hinfo, hname, -⟩ := henv.table.of_resolveMethod hargs hfound
  have hn : PlainName name := hname ▸ hinfo.name
  refine leads_call hinfo hn hargs (Types.foundOn_resolveMethod hfound).2 hcode ?_ hinfo.returns ?_
    ?_ shape
  · unfold invocation
    split <;> rfl
  · unfold invocation
    split <;> rfl
  · unfold invocation
    split <;> rfl

theorem construct_kinds (henv : env.WellNamed) (hobjects : env.Objects) {className : String}
    {args : Arguments} {v : Typed} (hargs : ∀ a ∈ args.types, a.IsValue)
    (hcode : ∀ shape, Leads m [] shape args.code ((args.types.map Cell.ofTy).reverse ++ shape))
    (h : Yields (construct env className p args) first v next) (shape : Shape) :
    Leads m [] shape v.code (.ofTy v.type :: shape) := by
  obtain ⟨info, hfound, -, rfl, rfl⟩ := yields_construct.1 h
  obtain ⟨hname, hinfo, -⟩ := henv.table.of_resolveConstructor hargs hfound
  obtain ⟨-, -, -, hchosen⟩ := Types.mem_constructors_of_resolveConstructor hfound
  have hnew : Leads m [] shape (ops [.new className, .dup]) (.reference :: .reference :: shape) := by
    have hfirst : Leads m [] shape [.op (.new className)] (.reference :: shape) :=
      .plain [] [.reference] (.fixed rfl) rfl rfl
    exact hfirst.append (.plain _ _ (.dup .reference) rfl rfl)
  have hkinds : (Instruction.invokeConstructor className info.params).kinds? m =
      callKinds? info.params .void := rfl
  have hcall := leads_call hinfo hname.toPlainName hargs hchosen hcode hkinds (.inl rfl) rfl rfl
    (.reference :: shape)
  have hall := hnew.append hcall
  rw [← List.append_assoc] at hall
  rw [hobjects.created _ _ _ hfound]
  exact hall

theorem head_kinds (henv : env.WellNamed) (hobjects : env.Objects) (hm : env.KeptBy m) {h : Head}
    {r : Reached} (hn : ∀ e ∈ h.operands, e.WellNamed) (ih : ∀ e ∈ h.operands, LeavesKind env m e)
    (hy : Yields (head env h) first r next) (shape : Shape) :
    Leads m [] shape r.code (r.receiver.kinds ++ shape) := by
  cases h with
  | this p =>
    simp only [head, yields_pure] at hy
    obtain ⟨rfl, rfl⟩ := hy
    rw [Receiver.kinds_value henv.thisType, hobjects.self]
    exact leads_loadThis hm
  | name p name =>
    simp only [head] at hy
    obtain ⟨rfl, ⟨l, hl, rfl⟩ | ⟨owner, info, hp, rfl⟩ | rfl⟩ := yields_nameHead hy
    · rw [Receiver.kinds_value (henv.of_local? hl)]
      exact .plain [] _ (turns_load hm hl) rfl rfl
    · rw [Receiver.kinds_value (henv.legible_getField hp).2.2]
      exact (leads_loadThis hm).append (leads_getField henv hm hp)
    · exact .nil
  | call p name args =>
    obtain ⟨as, result, middle, ha, hc, rfl⟩ := yields_head_call.1 hy
    obtain ⟨htypes, -, -⟩ := arguments_flow (fun e he => expr_flow henv (hn e he)) ha
    exact (leads_loadThis hm).append (call_kinds henv htypes (arguments_kinds ih ha) hc)

theorem print_kinds {line : Bool} {types : List Ty} (hcount : types.length ≤ 1) :
    Leads m [] ((types.map Cell.ofTy).reverse ++ .reference :: shape)
      [.op (.print line types.head?)] shape := by
  cases types with
  | nil => exact .plain [.reference] [] (.fixed rfl) rfl rfl
  | cons ty rest =>
    obtain rfl : rest = [] :=
      List.length_eq_zero_iff.1 (Nat.le_zero.1 (Nat.le_of_succ_le_succ hcount))
    refine .plain [.ofTy ty, .reference] [] (.fixed ?_) rfl rfl
    rw [List.head?_cons, Instruction.kinds?, ofDescriptor?_printDescriptor]
    rfl

theorem link_kinds (henv : env.WellNamed) (hm : env.KeptBy m) {receiver : Receiver} {l : Link}
    {r : Reached} (hr : receiver.IsResult) (hn : ∀ e ∈ l.operands, e.WellNamed)
    (ih : ∀ e ∈ l.operands, LeavesKind env m e)
    (hy : Yields (link env receiver l) first r next) (shape : Shape) :
    Leads m [] (receiver.kinds ++ shape) r.code (r.receiver.kinds ++ shape) := by
  cases l with
  | field p name =>
    simp only [link] at hy
    obtain ⟨rfl, ⟨rfl, rfl⟩ | ⟨ty, rfl, harray, rfl⟩ | ⟨ty, owner, info, rfl, href, hp, rfl⟩⟩ :=
      yields_fieldStep hy
    · exact .plain [] [.reference] (.fixed rfl) rfl rfl
    · rw [Receiver.kinds_reference (isReference_of_isArray harray),
        Receiver.kinds_value Ty.isValue_int]
      exact .plain [.reference] [.int] (.fixed rfl) rfl rfl
    · rw [Receiver.kinds_reference href, Receiver.kinds_value (henv.legible_getField hp).2.2]
      exact leads_getField henv hm hp
  | call p name args =>
    rcases yields_link_call hy with ⟨line, as, rfl, hprint, ha, rfl⟩ |
      ⟨ty, as, middle, rfl, href, ha, hc⟩
    · obtain ⟨-, hlength, -⟩ := arguments_flow (fun e he => expr_flow henv (hn e he)) ha
      rw [Link.operands] at hlength
      have hcount : as.types.length ≤ 1 := by
        rw [hlength]
        exact length_le_of_printMethod? hprint
      exact (arguments_kinds ih ha (.reference :: shape)).append (print_kinds hcount)
    · obtain ⟨htypes, -, -⟩ := arguments_flow (fun e he => expr_flow henv (hn e he)) ha
      rw [Receiver.kinds_reference href]
      exact call_kinds henv htypes (arguments_kinds ih ha) hc
  | index p i =>
    obtain ⟨ty, v, rfl, harray, hv, hint, rfl⟩ := yields_link_index hy
    have hvalue := Ty.IsResult.isValue hr (isVoid_of_isArray harray)
    have helement : ty.element.IsValue := hvalue
    have hindex := ih i (List.mem_singleton.2 rfl) hv (.reference :: shape)
    rw [Cell.ofTy_of_isInteger hint] at hindex
    rw [Receiver.kinds_reference (isReference_of_isArray harray), Receiver.kinds_value helement]
    refine hindex.append (.plain [.int, .reference] [.ofTy ty.element]
      (.fixed ?_) rfl rfl)
    rw [Instruction.kinds?, Ty.element, Element.cell_ofTy]

theorem links_kinds (henv : env.WellNamed) (hm : env.KeptBy m) {start r : Reached}
    {ls : List Link} (hn : ∀ l ∈ ls, ∀ e ∈ l.operands, e.WellNamed)
    (ih : ∀ l ∈ ls, ∀ e ∈ l.operands, LeavesKind env m e) (hr : start.receiver.IsResult)
    (hs : Leads m [] shape start.code (start.receiver.kinds ++ shape))
    (hy : Yields (links env start ls) first r next) :
    Leads m [] shape r.code (r.receiver.kinds ++ shape) := by
  induction ls generalizing start first with
  | nil =>
    simp only [links, yields_pure] at hy
    obtain ⟨rfl, rfl⟩ := hy
    exact hs
  | cons l rest ihrest =>
    obtain ⟨step, middle, hstep, hrest⟩ := yields_links_cons.1 hy
    have hnamed := hn l (List.mem_cons_self ..)
    have hlink := link_kinds henv hm hr hnamed (ih l (List.mem_cons_self ..)) hstep shape
    obtain ⟨hresult, -⟩ :=
      link_flow (d := 0) henv (fun e he => expr_flow henv (hnamed e he)) hr hstep
    rw [List.forall_mem_cons] at hn ih
    refine ihrest hn.2 ih.2 ?_ ?_ hrest
    · exact hresult
    · exact hs.append hlink

theorem literal_kinds (value : Literal) (shape : Shape) :
    Leads m [] shape (literal value).code (.ofTy (literal value).type :: shape) := by
  cases value with
  | int value => exact .plain [] [.int] (.fixed rfl) rfl rfl
  | char value => exact .plain [] [.int] (.fixed rfl) rfl rfl
  | boolean value => exact .plain [] [.int] (.fixed rfl) rfl rfl
  | string value => exact .plain [] [.reference] (.fixed rfl) rfl rfl
  | null => exact .plain [] [.reference] (.fixed rfl) rfl rfl

/-- An operand of a connective is taken by the jump behind it. -/
theorem LeavesKind.leads_operand {e : Expr} {v : Typed} (he : LeavesKind env m e)
    (h : Yields (expr env e) first v next) (ht : v.type = .boolean) (op : Connective) (l : Label)
    (shape : Shape) : Leads m [(l, shape)] shape (v.code ++ [Item.op (shortcut op l)]) shape := by
  have hcode := he h shape
  rw [ht] at hcode
  exact hcode.closed.append (leads_shortcut op l)

/-- The code of an expression leaves one cell, of the kind of its type. -/
theorem expr_kinds (henv : env.WellNamed) (hobjects : env.Objects) (hm : env.KeptBy m) {e : Expr}
    (he : e.WellNamed) : LeavesKind env m e := by
  induction he with
  | literal =>
    intro first next v h shape
    simp only [expr, yields_pure] at h
    obtain ⟨rfl, rfl⟩ := h
    exact literal_kinds _ shape
  | @binary op left right _ _ ihl ihr =>
    intro first next v h shape
    cases op with
    | arithmetic op =>
      obtain ⟨l, r, middle, hl, hr, hleft, hright, rfl⟩ := yields_expr_arithmetic.1 h
      have hboth := (ihl hl shape).append (ihr hr (.ofTy l.type :: shape))
      rw [Cell.ofTy_of_isInteger hleft, Cell.ofTy_of_isInteger hright] at hboth
      exact hboth.append (.plain [.int, .int] [.int] (.fixed rfl) rfl rfl)
    | relation op =>
      obtain ⟨l, r, middle, yes, jump, hl, hr, hjump, rfl, rfl⟩ := yields_expr_relation.1 h
      obtain ⟨hturns, hreturn, hgoto, htarget⟩ := turns_comparisonJump (m := m) hjump
      have htest : Leads m [(yes, shape)] (.ofTy r.type :: .ofTy l.type :: shape) [.op jump]
          shape :=
        .jump _ [] hturns hreturn hgoto htarget List.mem_cons_self
      have hboth := ((ihl hl shape).append (ihr hr (.ofTy l.type :: shape))).closed.append htest
      have hchoice := leads_choice false (yes + 1) hboth
      rw [List.append_assoc] at hchoice
      exact hchoice
    | connective op =>
      obtain ⟨l, r, middle, hl, htl, hr, htr, rfl⟩ := yields_expr_connective.1 h
      have hboth := (ihl.leads_operand hl htl op first shape).append
        (ihr.leads_operand hr htr op first shape)
      have hchoice := leads_choice (decide (op = .and)) (first + 1) hboth
      simp only [List.append_assoc, List.cons_append] at hchoice ⊢
      exact hchoice
  | @access h ls hh hl ihh ihl =>
    intro first next v hy shape
    obtain ⟨hchain, hvoid⟩ := yields_expr_access.1 hy
    obtain ⟨start, r, middle, hs, hr, htype, hcode⟩ := yields_chain.1 hchain
    have hhead := head_kinds henv hobjects hm hh ihh hs shape
    obtain ⟨hresult, -⟩ := head_flow (d := 0) henv (fun e he => expr_flow henv (hh e he)) hs
    have hlinks := links_kinds henv hm hl ihl hresult hhead hr
    rw [htype, Receiver.kinds, if_neg (by simp [hvoid])] at hlinks
    rw [hcode]
    exact hlinks
  | newObject hargs ih =>
    intro first next v h shape
    obtain ⟨as, middle, ha, hc⟩ := yields_expr_newObject.1 h
    obtain ⟨htypes, -, -⟩ := arguments_flow (fun e he => expr_flow henv (hargs e he)) ha
    exact construct_kinds henv hobjects htypes (arguments_kinds ih ha) hc shape
  | newArray helement _ ih =>
    intro first next v h shape
    obtain ⟨n, middle, hn, hc⟩ := yields_expr_newArray.1 h
    obtain ⟨hint, rfl, rfl⟩ := yields_constructArray.1 hc
    have hlength := ih hn shape
    rw [Cell.ofTy_of_isInteger hint] at hlength
    exact hlength.append (.plain [.int] [.reference] (.fixed rfl) rfl rfl)

end Lowering

end Javelet
