import Javelet.Lowering.Declaration
import Javelet.Proofs.Syntax.Marks

/-!
# Code and positions

The code of a program does not depend on the positions in its tree. Where lowering stops with a
fault, it stops with the same fault where this stands now. `Moved` says this of two lowerings; there
is a rule for each way of putting them together.
-/
namespace Javelet.Lowering

open Assembly

/-- The second lowering gives the same as the first one, or stops with the same fault at its new
position. -/
def Moved {α : Type} (m : Marks) (x x' : Lower α) : Prop :=
  ∀ next, x' next = (x next).mapError (Located.marked m)

namespace Moved

variable {α β : Type} {m : Marks} {x x' : Lower α} {fault : Fault} {p : Position}

theorem pure {a : α} : Moved m (pure a : Lower α) (Pure.pure a) := fun _ => rfl

theorem fresh {count : Nat} : Moved m (freshLabels count) (freshLabels count) := fun _ => rfl

theorem bind {f f' : α → Lower β} (h : Moved m x x') (hf : ∀ a, Moved m (f a) (f' a)) :
    Moved m (x >>= f) (x' >>= f') := by
  intro next
  show Except.bind (x' next) _ = (Except.bind (x next) _).mapError _
  rw [h next]
  cases x next with
  | error l => rfl
  | ok r => exact hf _ _

theorem map {f : α → β} (h : Moved m x x') : Moved m (f <$> x) (f <$> x') := by
  rw [← bind_pure_comp, ← bind_pure_comp]
  exact h.bind fun _ => .pure

theorem refuse : Moved m (Lowering.refuse fault p : Lower α)
    (Lowering.refuse fault (m.position p)) :=
  fun _ => rfl

/-- What comes behind a fault is not lowered. -/
theorem refuse_bind {f f' : α → Lower β} :
    Moved m (Lowering.refuse fault p >>= f) (Lowering.refuse fault (m.position p) >>= f') :=
  fun _ => rfl

theorem require {a : Option α} :
    Moved m (Lowering.require a fault p) (Lowering.require a fault (m.position p)) := by
  cases a with
  | none => exact refuse
  | some a => exact .pure

theorem ite {c : Prop} [Decidable c] {y y' : Lower α} (hx : Moved m x x') (hy : Moved m y y') :
    Moved m (if c then x else y) (if c then x' else y') := by
  split
  · exact hx
  · exact hy

theorem mapM {γ : Type} {f f' : γ → Lower α} {mark : γ → γ} {xs : List γ}
    (h : ∀ c ∈ xs, Moved m (f c) (f' (mark c))) : Moved m (xs.mapM f) ((xs.map mark).mapM f') := by
  induction xs with
  | nil => exact .pure
  | cons c xs ih =>
    rw [List.forall_mem_cons] at h
    rw [List.map_cons, List.mapM_cons, List.mapM_cons]
    exact h.1.bind fun _ => (ih h.2).bind fun _ => .pure

theorem run' (h : Moved m x x') (next : Label) :
    x'.run' next = (x.run' next).mapError (Located.marked m) := by
  show Prod.fst <$> x' next = (Prod.fst <$> x next).mapError _
  rw [h next]
  cases x next <;> rfl

end Moved

variable {m : Marks} {env : Env} {p : Position}

/-! ## Operators -/

section Operators

variable {op : BinaryOp} {l l' r r' : Lower Typed}

theorem arithmetic_moved (hl : Moved m l l') (hr : Moved m r r') :
    Moved m (arithmetic op p l r) (arithmetic op (m.position p) l' r') := by
  refine .bind hl fun left => .bind hr fun right => ?_
  cases op.arithmetic? with
  | none => exact .refuse
  | some instruction => exact .ite .pure .refuse

theorem comparison_moved (hl : Moved m l l') (hr : Moved m r r') :
    Moved m (comparison op p l r) (comparison op (m.position p) l' r') := by
  refine .bind hl fun left => .bind hr fun right => ?_
  refine .bind .fresh fun yes => .bind .fresh fun finish => ?_
  exact .bind .require fun jump => .pure

theorem asCondition_moved (hl : Moved m l l') :
    Moved m (asCondition p l) (asCondition (m.position p) l') :=
  .bind hl fun _ => .ite .pure .refuse

theorem connective_moved {x x' y y' : Lower Segment} (hx : Moved m x x')
    (hy : Moved m y y') : Moved m (connective op x y) (connective op x' y') := by
  refine .bind .fresh fun decided => .bind .fresh fun finish => ?_
  exact .bind hx fun left => .bind hy fun right => .pure

end Operators

/-! ## Members -/

theorem property_moved (className name : String) :
    Moved m (property env className name p) (property env className name (m.position p)) := by
  unfold property
  cases env.table.findProperty className name with
  | none => exact .refuse
  | some found => exact .pure

theorem nameHead_moved (name : String) :
    Moved m (nameHead env name p) (nameHead env name (m.position p)) := by
  unfold nameHead
  cases env.local? name with
  | some l => exact .pure
  | none =>
    cases env.table.findProperty env.className name with
    | some found => exact .pure
    | none => exact .ite .pure .refuse

theorem checkCount_moved (count : Nat) :
    Moved m (checkCount count p) (checkCount count (m.position p)) :=
  .ite .pure .refuse

theorem call_moved (receiver : Ty) (name : String) (args : Arguments) :
    Moved m (call env receiver name p args) (call env receiver name (m.position p) args) := by
  refine .bind .require fun found => .ite ?_ ?_
  · exact .refuse_bind
  · exact .bind (checkCount_moved _) fun _ => .pure

theorem fieldStep_moved (receiver : Receiver) (name : String) :
    Moved m (fieldStep env receiver name p) (fieldStep env receiver name (m.position p)) := by
  cases receiver with
  | system => exact .ite .pure .refuse
  | printStream => exact .refuse
  | value ty =>
    refine .ite .pure (.ite ?_ .refuse)
    exact .bind (property_moved _ _) fun _ => .pure

theorem asIndex_moved (value : Typed) : Moved m (asIndex p value) (asIndex (m.position p) value) :=
  .ite .pure .refuse

/-! ## Expressions -/

/-- What is shown of every expression. -/
def Moves (m : Marks) (e : Expr) : Prop := ∀ env, Moved m (expr env e) (expr env (e.marked m))

theorem arguments_moved {args : List Expr} (ih : ∀ e ∈ args, Moves m e) :
    Moved m (arguments env args) (arguments env (args.map (Expr.marked m))) := by
  induction args with
  | nil => exact .pure
  | cons e args ihargs =>
    rw [List.forall_mem_cons] at ih
    rw [List.map_cons, arguments, arguments]
    exact .bind (ih.1 env) fun v => .bind (ihargs ih.2) fun vs => .pure

theorem head_moved {h : Head} (ih : ∀ e ∈ h.operands, Moves m e) :
    Moved m (head env h) (head env (h.marked m)) := by
  cases h with
  | this p => exact .pure
  | name p name =>
    rw [Head.marked, head, head]
    exact nameHead_moved name
  | call p name args =>
    rw [Head.marked, markedExprs_eq, head, head]
    exact .bind (arguments_moved ih) fun _ => .bind (call_moved _ _ _) fun _ => .pure

theorem link_moved {receiver : Receiver} {l : Link} (ih : ∀ e ∈ l.operands, Moves m e) :
    Moved m (link env receiver l) (link env receiver (l.marked m)) := by
  cases l with
  | field p name =>
    rw [Link.marked, link, link]
    exact fieldStep_moved receiver name
  | call p name args =>
    have hargs : Moved m (arguments env args) (arguments env (args.map (Expr.marked m))) :=
      arguments_moved ih
    rw [Link.marked, markedExprs_eq]
    cases receiver with
    | system => exact .refuse
    | printStream =>
      rw [link, link, List.length_map]
      exact .bind .require fun line => .bind hargs fun _ => .pure
    | value ty => exact .ite (.bind hargs fun _ => call_moved _ _ _) .refuse
  | index p index =>
    rw [Link.marked]
    cases receiver with
    | system => exact .refuse
    | printStream => exact .refuse
    | value ty =>
      rw [link, link, Expr.position_marked]
      refine .ite (.bind (ih index (List.mem_singleton.2 rfl) env) fun v => ?_) .refuse
      exact .bind (asIndex_moved v) fun _ => .pure

theorem links_moved {ls : List Link} (ih : ∀ l ∈ ls, ∀ e ∈ Link.operands l, Moves m e)
    (start : Reached) :
    Moved m (links env start ls) (links env start (ls.map (Link.marked m))) := by
  induction ls generalizing start with
  | nil => exact .pure
  | cons l ls ihls =>
    rw [List.forall_mem_cons] at ih
    rw [List.map_cons, links, links]
    exact .bind (link_moved ih.1) fun next => ihls ih.2 _

theorem chain_moved_of {h : Head} {ls : List Link} (ihh : ∀ e ∈ h.operands, Moves m e)
    (ihl : ∀ l ∈ ls, ∀ e ∈ Link.operands l, Moves m e) :
    Moved m (chain env (.mk h ls)) (chain env ((Chain.mk h ls).marked m)) := by
  rw [Chain.marked, markedLinks_eq, chain, chain, Head.position_marked]
  refine .bind (head_moved ihh) fun start => .bind (links_moved ihl start) fun reached => ?_
  cases reached.receiver with
  | value ty => exact .pure
  | system => exact .refuse
  | printStream => exact .refuse

theorem asCondition_moved_of {e : Expr} (ih : Moves m e) (env : Env) :
    Moved m (asCondition e.position (expr env e))
      (asCondition (e.marked m).position (expr env (e.marked m))) := by
  rw [Expr.position_marked]
  exact asCondition_moved (ih env)

theorem expr_moves (e : Expr) : Moves m e := by
  induction e using Expr.induction with
  | literal p value => exact fun env => .pure
  | binary op left right ihl ihr =>
    intro env
    rw [Expr.marked]
    cases op with
    | connective op =>
      exact connective_moved (asCondition_moved_of ihl env) (asCondition_moved_of ihr env)
    | relation op =>
      rw [expr, expr, Expr.position_marked]
      exact comparison_moved (ihl env) (ihr env)
    | arithmetic op =>
      rw [expr, expr, Expr.position_marked]
      exact arithmetic_moved (ihl env) (ihr env)
  | access h ls ihh ihl =>
    intro env
    rw [Expr.marked, expr, expr, Chain.position_marked]
    refine .bind (chain_moved_of ihh ihl) fun v => ?_
    exact .ite .refuse_bind .pure
  | newObject p className args ih =>
    intro env
    rw [Expr.marked, markedExprs_eq, expr, expr]
    refine .bind (arguments_moved ih) fun as => .bind .require fun constructor => ?_
    exact .bind (checkCount_moved _) fun _ => .pure
  | newArray p element length ih =>
    intro env
    rw [Expr.marked, expr, expr]
    exact .bind (ih env) fun n => .ite .pure .refuse

theorem expr_moved (m : Marks) (env : Env) (e : Expr) :
    Moved m (expr env e) (expr env (e.marked m)) :=
  expr_moves e env

theorem chain_moved (m : Marks) (env : Env) (c : Chain) :
    Moved m (chain env c) (chain env (c.marked m)) := by
  obtain ⟨h, ls⟩ := c
  exact chain_moved_of (fun e _ => expr_moves e) fun _ _ e _ => expr_moves e

/-! ## Assignments -/

theorem assignedValue_moved (op : AssignOp) (target : Ty) (value : Typed) :
    Moved m (assignedValue op target p value) (assignedValue op target (m.position p) value) := by
  cases op with
  | plain => exact .pure
  | compound op => exact .ite .pure .refuse

theorem storeLocal_moved (l : Local) (op : AssignOp) (value : Typed) :
    Moved m (storeLocal l op p value) (storeLocal l op (m.position p) value) :=
  .bind (assignedValue_moved op _ value) fun _ => .pure

theorem storeField_moved (owner name : String) (ty : Ty) (op : AssignOp) (value : Typed) :
    Moved m (storeField owner name ty op p value)
      (storeField owner name ty op (m.position p) value) :=
  .bind (assignedValue_moved op _ value) fun _ => .pure

theorem storeElement_moved (ty : Ty) (op : AssignOp) (value : Typed) :
    Moved m (storeElement ty op p value) (storeElement ty op (m.position p) value) :=
  .bind (assignedValue_moved op _ value) fun _ => .pure

theorem assignName_moved (name : String) (op : AssignOp) (value : Expr) :
    Moved m (assignName env name p op value)
      (assignName env name (m.position p) op (value.marked m)) := by
  unfold assignName
  cases env.local? name with
  | some l => exact .bind (expr_moved m env value) fun v => storeLocal_moved l op v
  | none =>
    refine .bind (property_moved _ _) fun found => .bind (expr_moved m env value) fun v => ?_
    exact .bind (storeField_moved _ _ _ op v) fun _ => .pure

theorem index_moved (i : Expr) : Moved m (index env i) (index env (i.marked m)) := by
  rw [index, index, Expr.position_marked]
  exact .bind (expr_moved m env i) fun v => asIndex_moved v

theorem assignLink_moved (receiver : Receiver) (last : Link) (op : AssignOp) (value : Expr) :
    Moved m (assignLink env receiver p last op value)
      (assignLink env receiver (m.position p) (last.marked m) op (value.marked m)) := by
  cases last with
  | field q name =>
    cases receiver with
    | value ty =>
      refine .ite (.bind (property_moved _ _) fun found => ?_) .refuse
      exact .bind (expr_moved m env value) fun v => storeField_moved _ _ _ op v
    | _ => exact .refuse
  | call q name args => exact .refuse
  | index q i =>
    cases receiver with
    | value ty =>
      refine .ite (.bind (index_moved i) fun code => ?_) .refuse
      refine .bind (expr_moved m env value) fun v => ?_
      exact .bind (storeElement_moved _ op v) fun _ => .pure
    | _ => exact .refuse

theorem assignment_moved (a : Assignment) :
    Moved m (assignment env a) (assignment env (a.marked m)) := by
  obtain ⟨op, ⟨h, ls⟩, value⟩ := a
  simp only [assignment, Assignment.marked, Chain.marked, markedLinks_eq, Chain.links, Chain.head,
    Chain.position, Head.position_marked, List.getLast?_map, ← List.map_dropLast]
  cases ls.getLast? with
  | none =>
    cases h with
    | name p name =>
      rw [Head.marked]
      exact assignName_moved name op value
    | this p => exact .refuse
    | call p name args => exact .refuse
  | some last =>
    refine .bind (head_moved fun e _ => expr_moves e) fun start => ?_
    refine .bind (links_moved (fun _ _ e _ => expr_moves e) start) fun reached => ?_
    exact .bind (assignLink_moved reached.receiver last op value) fun _ => .pure

theorem variable_moved (v : Variable) :
    Moved m (variable_ env v) (variable_ env (v.marked m)) := by
  obtain ⟨p, ty, name, value⟩ := v
  refine .bind .require fun l => ?_
  cases value with
  | none => exact .pure
  | some value => exact .bind (expr_moved m env value) fun v => storeLocal_moved l _ v

/-! ## Parts of statements -/

theorem action_moved (a : Action) : Moved m (action env a) (action env (a.marked m)) := by
  cases a with
  | assignment a => exact assignment_moved a
  | call c => exact .bind (chain_moved m env c) fun _ => .pure

theorem jump_moved (j : Jump) : Moved m (jump env p j) (jump env (m.position p) (j.marked m)) := by
  cases j with
  | return_ value =>
    cases value with
    | none => exact .pure
    | some e => exact .bind (expr_moved m env e) fun _ => .pure
  | break_ => exact .bind .require fun _ => .pure
  | continue_ => exact .bind .require fun _ => .pure

theorem test_moved (e : Expr) (yes no : Label) :
    Moved m (test env e yes no) (test env (e.marked m) yes no) :=
  .bind (asCondition_moved_of (expr_moves e) env) fun _ => .pure

theorem forInit_moved (init : Option ForInit) :
    Moved m (forInit env init) (forInit env (init.map (ForInit.marked m))) := by
  cases init with
  | none => exact .pure
  | some init =>
    cases init with
    | declaration v => exact variable_moved v
    | assignment a => exact assignment_moved a

theorem forTest_moved (e : Option Expr) (yes no : Label) :
    Moved m (forTest env e yes no) (forTest env (e.map (Expr.marked m)) yes no) := by
  cases e with
  | none => exact .pure
  | some e => exact test_moved e yes no

theorem forUpdate_moved (update : Option Action) :
    Moved m (forUpdate env update) (forUpdate env (update.map (Action.marked m))) := by
  cases update with
  | none => exact .pure
  | some a => exact action_moved a

theorem selector_moved (e : Expr) (l : Local) :
    Moved m (selector env e l) (selector env (e.marked m) l) := by
  rw [selector, selector, Expr.position_marked]
  exact .bind (expr_moved m env e) fun _ => .ite .pure .refuse

theorem caseTests_moved (l : Local) (first : Label) (cases : List Case) :
    Moved m (caseTests l first cases) (caseTests l first (cases.map (Case.marked m))) := by
  refine .bind ?_ fun _ => .pure
  rw [List.zipIdx_map]
  refine .mapM fun c _ => ?_
  obtain ⟨⟨p, q, label, b⟩, target⟩ := c
  exact .bind .require fun _ => .pure

/-! ## Statements -/

variable {position : Position → Position}

/-- What is shown of every statement. The scopes and the slots are found under the numbers of nodes,
so the positions alone are new. -/
def StatementMoves (position : Position → Position) (s : Statement) : Prop :=
  ∀ env join, Moved (.moved position) (statement env join s)
    (statement env join (s.marked (.moved position)))

theorem statements_moved {ss : List Statement} (ih : ∀ s ∈ ss, StatementMoves position s)
    (done : List Segment) : Moved (.moved position) (statements env done ss)
      (statements env done (ss.map (Statement.marked (.moved position)))) := by
  induction ss generalizing done with
  | nil => exact .pure
  | cons s ss ihss =>
    rw [List.forall_mem_cons] at ih
    rw [List.map_cons, statements, statements]
    exact .bind (ih.1 env none) fun code => ihss ih.2 _

theorem block_moved {b : Block} (ih : ∀ s ∈ b.statements, StatementMoves position s) :
    Moved (.moved position) (block env b) (block env (b.marked (.moved position))) := by
  obtain ⟨id, p, body⟩ := b
  rw [Block.marked, markedStatements_eq, block, block]
  exact statements_moved ih []

theorem caseBodies_moved {cases : List Case}
    (ih : ∀ c ∈ cases, ∀ s ∈ c.body.statements, StatementMoves position s)
    (done : List Segment) (label : Label) : Moved (.moved position) (caseBodies env done label cases)
      (caseBodies env done label (cases.map (Case.marked (.moved position)))) := by
  induction cases generalizing done label with
  | nil => exact .pure
  | cons c cases ihc =>
    obtain ⟨p, q, value, b⟩ := c
    rw [List.forall_mem_cons] at ih
    rw [List.map_cons, Case.marked, caseBodies, caseBodies]
    exact .bind (block_moved ih.1) fun code => ihc ih.2 _ _

theorem defaultBody_moved {default_ : Option Block}
    (ih : ∀ b ∈ default_, ∀ s ∈ Block.statements b, StatementMoves position s) (label : Label) :
    Moved (.moved position) (defaultBody env label default_)
      (defaultBody env label (default_.map (Block.marked (.moved position)))) := by
  cases default_ with
  | none => exact .pure
  | some b => exact .bind (block_moved (ih b rfl)) fun _ => .pure

theorem isConditional_marked (s : Statement) : (s.marked m).isConditional = s.isConditional := by
  cases s <;> rfl

theorem elseBranch_moved {otherwise : Option Statement}
    (ih : ∀ s ∈ otherwise, StatementMoves position s) (next finish : Label) :
    Moved (.moved position) (elseBranch env next finish otherwise)
      (elseBranch env next finish (otherwise.map (Statement.marked (.moved position)))) := by
  cases otherwise with
  | none => exact .pure
  | some s =>
    rw [Option.map_some, elseBranch, elseBranch, isConditional_marked]
    exact .ite (.bind (ih s rfl env _) fun _ => .pure) (.bind (ih s rfl env _) fun _ => .pure)

theorem statement_moves (s : Statement) : StatementMoves position s := by
  induction s using Statement.induction with
  | block b ih =>
    intro env join
    exact block_moved ih
  | conditional p e body otherwise ihbody ihother =>
    intro env join
    rw [Statement.marked, markedOtherwise_eq, statement, statement, Option.isSome_map]
    refine .bind .fresh fun yes => .bind .fresh fun no => ?_
    refine .ite (.bind .fresh ?_) (.bind .pure ?_) <;>
    · intro next
      refine .bind (test_moved e yes next) fun decision => .bind (ihbody env none) fun inner => ?_
      exact .bind (elseBranch_moved ihother next _) fun rest => .pure
  | whileLoop p e body ih =>
    intro env join
    rw [Statement.marked, statement, statement]
    refine .bind .fresh fun top => .bind .fresh fun start => .bind .fresh fun bottom => ?_
    refine .bind (test_moved e start bottom) fun decision => ?_
    exact .bind (ih _ none) fun inner => .pure
  | forLoop p id init e update body ih =>
    intro env join
    rw [Statement.marked, Marks.node_moved, statement, statement]
    refine .bind (forInit_moved init) fun before => .bind .fresh fun top => ?_
    refine .bind .fresh fun start => .bind .fresh fun step => .bind .fresh fun bottom => ?_
    refine .bind (forTest_moved e start bottom) fun decision => ?_
    refine .bind (ih _ none) fun inner => ?_
    exact .bind (forUpdate_moved update) fun after => .pure
  | switch p id e cases default_ ihcases ihdefault =>
    intro env join
    rw [Statement.marked, Marks.node_moved, markedCases_eq, markedDefault_eq, statement, statement,
      List.length_map, Option.isSome_map, Option.toList_map, List.length_map]
    refine .bind .require fun slot => .bind (selector_moved e _) fun store => ?_
    refine .bind .fresh fun first => .bind .fresh fun otherwise => .bind .fresh fun finish => ?_
    refine .bind (caseTests_moved _ first cases) fun tests => ?_
    refine .bind (caseBodies_moved ihcases [] first) fun bodies => ?_
    exact .bind (defaultBody_moved ihdefault otherwise) fun last => .pure
  | jump p j => exact fun env join => jump_moved j
  | action a => exact fun env join => action_moved a
  | declaration v => exact fun env join => variable_moved v

/-! ## Declarations -/

theorem initializer_moved (p : Property) :
    Moved m (initializer env p) (initializer env (p.marked m)) := by
  obtain ⟨access, ⟨q, ty, name, value⟩⟩ := p
  cases value with
  | none => exact .pure
  | some e => exact .bind (.map (expr_moved m env e)) fun _ => .pure

theorem prologue_moved (superclass : String) (properties : List Property) :
    Moved m (prologue env superclass properties)
      (prologue env superclass (properties.map (Property.marked m))) :=
  .bind (.mapM fun p _ => initializer_moved p) fun _ => .pure

theorem methodCode_moved (header : Header) (before : Segment) (d : Method) :
    Moved (.moved position) (methodCode env header before d)
      (methodCode env header before (d.marked (.moved position))) :=
  .bind (block_moved fun s _ => statement_moves s) fun _ => .pure

theorem method_moved (d : Method) :
    Moved (.moved position) (method env d) (method env (d.marked (.moved position))) := by
  have hheader : (d.signature.marked (.moved position)).paramTypes = d.signature.paramTypes :=
    Signature.paramTypes_marked ..
  simp only [method, Method.marked, hheader]
  exact methodCode_moved _ [] d

theorem constructor_moved (superclass : String) (properties : List Property) (d : Method) :
    Moved (.moved position) (constructor env superclass properties d) (constructor env superclass
      (properties.map (Property.marked (.moved position))) (d.marked (.moved position))) := by
  simp only [constructor, Method.marked, Signature.paramTypes_marked]
  exact .bind (prologue_moved superclass properties) fun before => methodCode_moved _ before d

theorem defaultConstructor_moved (superclass : String) (properties : List Property) :
    Moved m (defaultConstructor env superclass properties) (defaultConstructor env superclass
      (properties.map (Property.marked m))) :=
  .bind (prologue_moved superclass properties) fun _ => .pure

theorem class_moved (d : ClassDecl) :
    Moved (.moved position) (class_ env d) (class_ env (d.marked (.moved position))) := by
  have hfields : (d.properties.map (Property.marked (.moved position))).map
        (fun p => (⟨p.access, p.variable_.name, p.variable_.type⟩ : Field)) =
      d.properties.map fun p => ⟨p.access, p.variable_.name, p.variable_.type⟩ := by
    rw [List.map_map]
    rfl
  have hmethods : d.methods.map (Method.marked (.moved position)) ++
        (d.main.map (Method.marked (.moved position))).toList =
      (d.methods ++ d.main.toList).map (Method.marked (.moved position)) := by
    rw [List.map_append, Option.toList_map]
  have henv : classEnv env (d.marked (.moved position)) = classEnv env d := rfl
  unfold class_
  rw [henv]
  simp only [ClassDecl.marked, hfields, hmethods, List.isEmpty_map]
  cases env.table.lookup d.name with
  | error fault => exact .refuse_bind
  | ok info =>
    refine .bind .pure fun info => .bind (.mapM fun d _ => constructor_moved _ _ d) ?_
    refine fun constructors => .bind (.mapM fun d _ => method_moved d) fun methods => ?_
    exact .ite (.bind (.map (defaultConstructor_moved _ _)) fun _ => .pure) .pure

theorem interface_marked (d : InterfaceDecl) : interface (d.marked m) = interface d := by
  simp only [interface, InterfaceDecl.marked, List.map_map]
  congr 1
  refine List.map_congr_left fun s _ => ?_
  simp only [Function.comp_apply, Signature.paramTypes_marked]
  rfl

theorem typeDecl_moved (d : TypeDecl) :
    Moved (.moved position) (typeDecl env d) (typeDecl env (d.marked (.moved position))) := by
  cases d with
  | class_ d => exact .map (class_moved d)
  | interface d =>
    rw [TypeDecl.marked, typeDecl, typeDecl, interface_marked]
    exact .pure

/-- The code of a program is the same wherever its nodes stand. -/
theorem program_moved (position : Position → Position) (table : Types.Table) (arena : Arena)
    (p : Program) : program table arena (p.marked (.moved position)) =
      (program table arena p).mapError (Located.marked (.moved position)) :=
  (Moved.mapM fun d _ => typeDecl_moved d).run' 0

end Javelet.Lowering
