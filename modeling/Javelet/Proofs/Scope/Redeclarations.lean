import Mathlib.Algebra.Ring.Nat
import Javelet.Proofs.Lowering.OperandStack
import Javelet.Proofs.Scope.Clashes

/-!
# Names declared twice

In a program whose variables all have slots, the walk reports a clash at each declaration whose name
stands before it in the same scope, and nowhere else. A statement is followed in the scope in which
it stands: what it declares there comes in reading order, and the scopes that it opens are told one
by one.
-/
namespace Javelet.Scope

open Binding (repeated distinct)

namespace Resolved

variable {r r' r'' : Resolved} {ctx : Context} {scope : ScopeId} {seen : List String}

/-! ## Statements -/

/-- What is shown of every statement. -/
def Declaring (s : Statement) : Prop :=
  ∀ {ctx r seen}, s.WellNamed → s.nodes.Nodup → Closed r s.nodes → r.Holds ctx.scope seen →
    Declares ctx.scope seen s.declared s.scopes r (statement ctx r s)

theorem declares_statements {ss : List Statement} (ih : ∀ s ∈ ss, Declaring s)
    (hw : ∀ s ∈ ss, s.WellNamed) (hn : (statementNodes ss).Nodup)
    (hc : Closed r (statementNodes ss)) (hh : r.Holds ctx.scope seen) :
    Declares ctx.scope seen (ss.flatMap Statement.declared) (statementScopes ss) r
      (statements ctx r ss) := by
  induction ss generalizing r seen with
  | nil =>
    rw [statements]
    exact .refl hh
  | cons s ss ihss =>
    rw [statementNodes] at hn hc
    rw [List.flatMap_cons, statementScopes, statements]
    have hs : s ∈ s :: ss := List.mem_cons_self ..
    have hwalked : Walked ctx.scope s.nodes r (statement ctx r s) :=
      walks s (hw s hs) (List.nodup_append.1 hn).1 hc.left.unopened
    have hfirst := ih s hs (hw s hs) (List.nodup_append.1 hn).1 hc.left hh
    exact hfirst.trans (ihss (fun s hs => ih s (List.mem_cons_of_mem _ hs))
      (fun s hs => hw s (List.mem_cons_of_mem _ hs)) (List.nodup_append.1 hn).2.1
      (hc.behind hn hwalked) hfirst.holds)

/-- A block without a scope opens one. -/
theorem declares_block {b : Block} {kind : Kind} (ih : ∀ s ∈ b.statements, Declaring s)
    (hw : b.WellNamed) (hn : b.nodes.Nodup) (hc : Closed r b.nodes)
    (hh : r.Holds ctx.scope seen) :
    Declares ctx.scope seen [] b.scopes r (block ctx kind r b) := by
  obtain ⟨id, p, ss⟩ := b
  rw [Block.nodes] at hn hc
  rw [List.nodup_cons] at hn
  have hclosed : Closed (r.enter ctx.scope "block" kind id).1 (statementNodes ss) :=
    closed_enter _ _ _ (fun node hnode => hc node (List.mem_cons_of_mem _ hnode)) hn.1
  have hinside := @declares_statements _ { ctx with scope := r.arena.size } [] ss ih hw hn.2
    hclosed (holds_enter r ctx.scope "block" kind id)
  have hwalked := @walked_statements { ctx with scope := r.arena.size } _ ss (fun s _ => walks s)
    hw hn.2 hclosed
  rw [block, hc id (List.mem_cons_self ..), Block.scopes]
  exact .enter hh hinside hwalked

theorem declares_caseBodies {cases : List Case}
    (ih : ∀ c ∈ cases, ∀ s ∈ c.body.statements, Declaring s)
    (hw : ∀ c ∈ cases, c.body.WellNamed) (hn : (caseNodes cases).Nodup)
    (hc : Closed r (caseNodes cases)) (hh : r.Holds ctx.scope seen) :
    Declares ctx.scope seen [] (caseScopes cases) r (caseBodies ctx r cases) := by
  induction cases generalizing r with
  | nil =>
    rw [caseBodies]
    exact .refl hh
  | cons c cases ihc =>
    obtain ⟨p, q, l, b⟩ := c
    have hfirst : Case.mk p q l b ∈ Case.mk p q l b :: cases := List.mem_cons_self ..
    rw [caseNodes] at hn hc
    rw [caseBodies, caseScopes]
    have hwalked : Walked ctx.scope b.nodes r (block ctx .case r b) :=
      walked_closedBlock (fun s _ => walks s) (hw _ hfirst) (List.nodup_append.1 hn).1 hc.left
    have hb : Declares ctx.scope seen [] b.scopes r (block ctx .case r b) :=
      declares_block (ih _ hfirst) (hw _ hfirst) (List.nodup_append.1 hn).1 hc.left hh
    refine hb.after ?_
    exact ihc (fun c hm => ih c (List.mem_cons_of_mem _ hm))
      (fun c hm => hw c (List.mem_cons_of_mem _ hm)) (List.nodup_append.1 hn).2.1
      (hc.behind hn hwalked) hb.same

theorem declares_optionalBlock {b : Option Block}
    (ih : ∀ b' ∈ b, ∀ s ∈ b'.statements, Declaring s) (hw : ∀ b' ∈ b, b'.WellNamed)
    (hn : (defaultNodes b).Nodup) (hc : Closed r (defaultNodes b))
    (hh : r.Holds ctx.scope seen) :
    Declares ctx.scope seen [] (defaultScopes b) r (optionalBlock ctx r b) := by
  cases b with
  | none =>
    rw [optionalBlock]
    exact .refl hh
  | some b =>
    rw [defaultNodes] at hn hc
    rw [optionalBlock, defaultScopes]
    exact declares_block (ih b rfl) (hw b rfl) hn hc hh

theorem declares_optionalStatement {s : Option Statement} (ih : ∀ s' ∈ s, Declaring s')
    (hw : ∀ s' ∈ s, s'.WellNamed) (hn : (otherwiseNodes s).Nodup)
    (hc : Closed r (otherwiseNodes s)) (hh : r.Holds ctx.scope seen) :
    Declares ctx.scope seen (otherwiseDeclared s) (otherwiseScopes s) r
      (optionalStatement ctx r s) := by
  cases s with
  | none =>
    rw [optionalStatement]
    exact .refl hh
  | some s =>
    rw [otherwiseNodes] at hn hc
    rw [optionalStatement, otherwiseDeclared, otherwiseScopes]
    exact ih s rfl (hw s rfl) hn hc hh

/-! ### For loops -/

/-- The body of a loop, if it is a block, has the scope of the loop. -/
def Shares (r : Resolved) (scope : ScopeId) (body : Statement) : Prop :=
  ∀ b, body = .block b → r.arena.scopeOf b.id = some scope

theorem Shares.walked {body : Statement} (h : r.Shares scope body) (hw : Walked scope [] r r') :
    r'.Shares scope body := by
  intro b hb
  rw [(hw.attached b.id List.not_mem_nil).scopeOf]
  exact h b hb

/-- A body that shares the scope of its loop is walked there without its braces. -/
theorem statement_eq_unbraced {body : Statement} (h : r.Shares ctx.scope body) :
    statement ctx r body = statements ctx r body.unbraced := by
  cases body with
  | block b =>
    rw [statement, block_eq, opened, h b rfl]
    rfl
  | _ => simp only [Statement.unbraced, statements]

section Loop

variable {id : NodeId} {v : Variable} {body : Statement}

/-- The scope of a loop is open and still empty. -/
theorem declares_enterLoop (h : (r.enter ctx.scope "for" .loop id).1.Holds r.arena.size []) :
    Declares r.arena.size [] [] [] (r.enter ctx.scope "for" .loop id).1
      (r.enterLoop ctx id (some (.declaration v)) body).1 := by
  cases body with
  | block b =>
    exact ⟨(Reports.refl _).of_faults rfl rfl, h.of_eq (Nat.le_refl _) (fun _ => rfl) fun hc => hc⟩
  | _ => exact .refl h

theorem shares_enterLoop :
    (r.enterLoop ctx id (some (.declaration v)) body).1.Shares r.arena.size body := by
  rintro b rfl
  exact Arena.scopeOf_attach_self ..

theorem closed_enterLoop (hn : (id :: body.nodes).Nodup) (hc : Closed r (id :: body.nodes)) :
    Closed (r.enterLoop ctx id (some (.declaration v)) body).1 (statementNodes body.unbraced) := by
  intro node hnode
  have hmem : node ∈ body.nodes := Statement.nodes_unbraced body ▸ List.mem_append_right _ hnode
  cases hid : (r.enterLoop ctx id (some (.declaration v)) body).1.arena.scopeOf node with
  | none => rfl
  | some scope =>
    have hunopened :
        Unopened (r.enterLoop ctx id (some (.declaration v)) body).1 r.arena.size body :=
      unopened_enterLoop hc hn
    have hblock := (hunopened node hmem scope hid).2
    rw [Statement.nodes_unbraced, hblock] at hn
    exact ((List.nodup_cons.1 (List.nodup_cons.1 hn).2).1 hnode).elim

/-- What is walked behind the opening of a loop is walked in its scope. -/
theorem walked_shared {nodes : List NodeId}
    (h : Walked r.arena.size nodes (r.enterLoop ctx id (some (.declaration v)) body).1 r') :
    Walked r.arena.size (body.blockId?.toList ++ nodes)
      (r.enter ctx.scope "for" .loop id).1 r' := by
  cases body with
  | block b => exact walked_attach h
  | _ => exact h

/-- A loop with a declaration opens one scope for it and for the body. -/
theorem declares_loop {e : Option Expr} {update : Option Action}
    (ih : ∀ s ∈ body.unbraced, Declaring s) (hv : v.WellNamed)
    (hw : ∀ s ∈ body.unbraced, s.WellNamed) (hn : (id :: body.nodes).Nodup)
    (hc : Closed r (id :: body.nodes)) (hh : r.Holds ctx.scope seen) (p : Position) :
    Declares ctx.scope seen []
      ((v.declared :: body.unbraced.flatMap Statement.declared) :: statementScopes body.unbraced) r
      (statement ctx r (.forLoop p id (some (.declaration v)) e update body)) := by
  let inner : Context := { ctx with scope := r.arena.size }
  let opened := (r.enterLoop ctx id (some (.declaration v)) body).1
  let control := (opened.variable_ inner v).loopControl inner e update
  have heq : statement ctx r (.forLoop p id (some (.declaration v)) e update body) =
      statement inner control body := by
    rw [statement]
    rfl
  have hcontrol : Walked inner.scope [] opened control :=
    (walked_variable hv).followedBy (walked_loopControl e update)
  have hclosed : Closed control (statementNodes body.unbraced) :=
    (closed_enterLoop hn hc).walked hcontrol fun _ _ => List.not_mem_nil
  have hnodes : (statementNodes body.unbraced).Nodup := by
    rw [Statement.nodes_unbraced, List.nodup_cons] at hn
    exact (List.nodup_append.1 hn.2).2.1
  rw [heq, statement_eq_unbraced (shares_enterLoop.walked hcontrol)]
  have hbody : Walked inner.scope (statementNodes body.unbraced) control
      (statements inner control body.unbraced) :=
    walked_statements (fun s _ => walks s) hw hnodes hclosed
  refine .enter hh ?_ (walked_shared (hcontrol.trans hbody))
  have hopen : Declares inner.scope [] [] [] (r.enter ctx.scope "for" .loop id).1 opened :=
    declares_enterLoop (holds_enter r ctx.scope "for" .loop id)
  have hvar : Declares inner.scope [] [v.declared] [] (r.enter ctx.scope "for" .loop id).1
      (opened.variable_ inner v) :=
    hopen.after (declares_variable v hopen.same)
  have hparts : Declares inner.scope [] [v.declared] []
      (r.enter ctx.scope "for" .loop id).1 control :=
    hvar.trans (declares_loopControl e update hvar.holds)
  exact hparts.trans (declares_statements ih hw hnodes hclosed hparts.holds)

end Loop

/-- A block declares what its statements declare, in a scope of its own. -/
theorem declaring_of_unbraced {s : Statement} (h : ∀ s' ∈ s.unbraced, Declaring s') :
    Declaring s := by
  cases s with
  | block b =>
    intro ctx r seen hw hn hc hh
    cases hw with
    | block hw =>
    rw [Statement.nodes] at hn hc
    rw [statement, Statement.declared, Statement.scopes]
    exact declares_block h hw hn hc hh
  | _ => exact h _ (List.mem_singleton_self _)

/-- The statements that can share the scope of a loop. A loop needs them one by one, since the
braces around them open no scope there. -/
theorem declaring_unbraced (s : Statement) : ∀ s' ∈ s.unbraced, Declaring s' := by
  induction s using Statement.induction with
  | block b ih => exact fun s hs => declaring_of_unbraced (ih s hs)
  | conditional p e body otherwise ihbody ihother =>
    refine List.forall_mem_singleton.2 ?_
    intro ctx r seen hw hn hc hh
    cases hw with
    | conditional he hbody hother =>
    rw [Statement.nodes] at hn hc
    rw [statement, Statement.declared, Statement.scopes]
    have hr : Walked ctx.scope [] r (r.expr ctx e) := walked_expr ctx r e
    have hc' : Closed (r.expr ctx e) (body.nodes ++ otherwiseNodes otherwise) :=
      hc.walked hr fun _ _ => List.not_mem_nil
    have hwalked : Walked ctx.scope body.nodes (r.expr ctx e)
        (statement ctx (r.expr ctx e) body) :=
      walks body hbody (List.nodup_append.1 hn).1 hc'.left.unopened
    have hcondition : Declares ctx.scope seen [] [] r (r.expr ctx e) := declares_expr e hh
    have hfirst := declaring_of_unbraced ihbody hbody (List.nodup_append.1 hn).1 hc'.left
      hcondition.same
    exact hcondition.after (hfirst.trans (declares_optionalStatement
      (fun s hs => declaring_of_unbraced (ihother s hs)) hother (List.nodup_append.1 hn).2.1
      (hc'.behind hn hwalked) hfirst.holds))
  | whileLoop p e body ih =>
    refine List.forall_mem_singleton.2 ?_
    intro ctx r seen hw hn hc hh
    cases hw with
    | whileLoop he hbody =>
    rw [Statement.nodes] at hn hc
    rw [statement, Statement.declared, Statement.scopes]
    have hr : Walked ctx.scope [] r (r.expr ctx e) := walked_expr ctx r e
    have hcondition : Declares ctx.scope seen [] [] r (r.expr ctx e) := declares_expr e hh
    exact hcondition.after (declaring_of_unbraced ih hbody hn
      (hc.walked hr fun _ _ => List.not_mem_nil) hcondition.same)
  | forLoop p id init e update body ih =>
    refine List.forall_mem_singleton.2 ?_
    intro ctx r seen hw hn hc hh
    cases hw with
    | forLoop hinit he hupdate hbody =>
    rw [Statement.nodes] at hn hc
    by_cases hdeclares : ∃ v, init = some (.declaration v)
    · obtain ⟨v, rfl⟩ := hdeclares
      rw [Statement.declared, Statement.scopes_forLoop]
      exact declares_loop ih (hinit _ rfl) hbody.unbraced hn hc hh p
    · have hno : ∀ v, init ≠ some (.declaration v) := fun v hv => hdeclares ⟨v, hv⟩
      have hparts : Walked ctx.scope [] r ((r.loopInit ctx init).loopControl ctx e update) :=
        (walked_loopInit hinit).followedBy (walked_loopControl e update)
      have hstart : Declares ctx.scope seen [] [] r (r.loopInit ctx init) :=
        declares_loopInit hno hh
      have hcontrol : Declares ctx.scope seen [] [] r
          ((r.loopInit ctx init).loopControl ctx e update) :=
        hstart.after (declares_loopControl e update hstart.same)
      have hrest := declaring_of_unbraced ih hbody (List.nodup_cons.1 hn).2
        (Closed.walked (fun node hnode => hc node (List.mem_cons_of_mem _ hnode)) hparts
          fun _ _ => List.not_mem_nil) hcontrol.same
      rw [statement]
      cases init with
      | none =>
        simp only [Statement.declared, Statement.scopes]
        exact hcontrol.after hrest
      | some i =>
        cases i with
        | declaration v => exact (hno v rfl).elim
        | assignment a =>
          simp only [Statement.declared, Statement.scopes]
          exact hcontrol.after hrest
  | switch p id e cases default_ ihc ihd =>
    refine List.forall_mem_singleton.2 ?_
    intro ctx r seen hw hn hc hh
    cases hw with
    | switch he hcases hdefault =>
    rw [Statement.nodes] at hn hc
    rw [statement, Statement.declared, Statement.scopes]
    rw [List.nodup_cons] at hn
    have hr : Walked ctx.scope [id] r (r.selector ctx id e) := walked_selector ctx r id e
    have hc' : Closed (r.selector ctx id e) (caseNodes cases ++ defaultNodes default_) := by
      refine Closed.walked (fun node hnode => hc node (List.mem_cons_of_mem _ hnode)) hr ?_
      intro node hnode hid
      exact hn.1 (List.mem_singleton.1 hid ▸ hnode)
    have hwalked : Walked ctx.scope (caseNodes cases) (r.selector ctx id e)
        (caseBodies ctx (r.selector ctx id e) cases) :=
      walked_caseBodies (fun c _ s _ => walks s) hcases (List.nodup_append.1 hn.2).1 hc'.left
    have hselector : Declares ctx.scope seen [] [] r (r.selector ctx id e) :=
      declares_selector id e hh
    have hbodies := declares_caseBodies (fun c hm s hs => declaring_of_unbraced (ihc c hm s hs))
      hcases (List.nodup_append.1 hn.2).1 hc'.left hselector.same
    exact hselector.after (hbodies.after (declares_optionalBlock
      (fun b hb s hs => declaring_of_unbraced (ihd b hb s hs)) hdefault
      (List.nodup_append.1 hn.2).2.1 (hc'.behind hn.2 hwalked) hbodies.same))
  | jump p j =>
    refine List.forall_mem_singleton.2 ?_
    intro ctx r seen hw hn hc hh
    rw [statement, Statement.declared, Statement.scopes]
    exact .report hh (.jump j)
  | action a =>
    refine List.forall_mem_singleton.2 ?_
    intro ctx r seen hw hn hc hh
    rw [statement, Statement.declared, Statement.scopes]
    exact .report hh (.action a)
  | declaration v =>
    refine List.forall_mem_singleton.2 ?_
    intro ctx r seen hw hn hc hh
    rw [statement, Statement.declared, Statement.scopes]
    exact declares_variable v hh

theorem declaring (s : Statement) : Declaring s := declaring_of_unbraced (declaring_unbraced s)

/-! ## Methods and types -/

/-- Parameters are declared in the scope of the method. -/
theorem declares_params (ps : List Parameter) (hh : r.Holds scope seen) :
    Declares scope seen (ps.map Parameter.declared) [] r (params scope r ps) := by
  induction ps generalizing r seen with
  | nil => exact .refl hh
  | cons p ps ih =>
    have hfirst : Declares scope seen [p.declared] [] r
        (r.declare scope .parameter p.name p.type p.position) :=
      declares_declare p.declared p.type hh
    exact hfirst.trans (ih hfirst.holds)

theorem reports_method {m : Method} (hw : m.WellNamed) (hn : m.nodes.Nodup)
    (hc : Closed r m.nodes) :
    Reports (m.scopes.flatMap (repeated [])) r (method ctx r m) := by
  have hopened : ({ (r.enter ctx.scope m.signature.text .method m.signature.id).1 with
      arena := (r.enter ctx.scope m.signature.text .method m.signature.id).1.arena.attach m.body.id
        r.arena.size
      nextSlot := if m.signature.isStatic then 0 else 1 } : Resolved).Holds r.arena.size [] :=
    (holds_enter r ctx.scope m.signature.text .method m.signature.id).of_eq (Nat.le_refl _)
      (fun _ => rfl) id
  have hparams := declares_params m.signature.params hopened
  have hbody : (statementNodes m.body.statements).Nodup := by
    rw [Method.nodes, Block.nodes_eq, List.nodup_cons, List.nodup_cons] at hn
    exact hn.2.2
  have hstatements := @declares_statements _ (bodyContext ctx r m) _ m.body.statements
    (fun s _ => declaring s) hw.body hbody (closed_atBody hw.signature hn hc) hparams.holds
  rw [method_eq]
  exact (hparams.trans hstatements).toReports.of_faults rfl rfl

theorem reports_abstractMethod (header : Signature) :
    Reports (repeated [] (header.params.map Parameter.declared)) r
      (abstractMethod scope r header) := by
  have hopened : ({ (r.enter scope header.text .method header.id).1 with
      nextSlot := 1 } : Resolved).Holds r.arena.size [] :=
    (holds_enter r scope header.text .method header.id).of_eq (Nat.le_refl _) (fun _ => rfl) id
  have hreports := (declares_params header.params hopened).toReports
  rw [List.flatMap_nil, List.append_nil] at hreports
  exact hreports.of_faults rfl rfl

theorem reports_initialValues (es : List Expr) : Reports [] r (es.foldl (expr ctx) r) := by
  induction es generalizing r with
  | nil => exact .refl r
  | cons e es ih => exact (Reports.report (.expr e)).trans ih

theorem reports_class {table : Types.Table} {d : ClassDecl} (hw : d.WellNamed)
    (hn : d.nodes.Nodup) (hc : Closed r d.nodes) :
    Reports ((d.members.flatMap Method.scopes).flatMap (repeated [])) r (class_ table r d) := by
  have hvalues : Reports [] r (behindValues table r d) :=
    (Reports.trans ((Reports.refl r).of_faults rfl (faults_atClass table r d))
      (reports_initialValues d.values))
  have hclosed := @closed_behindValues r table d hn hc
  rw [ClassDecl.nodes, List.nodup_cons] at hn
  rw [class_eq, List.flatMap_assoc]
  refine hvalues.trans (Reports.foldl hn.2 hclosed ?_)
  intro m hm r' hn hc
  exact ⟨grown_method (hw.methods m hm) hn hc, reports_method (hw.methods m hm) hn hc⟩

theorem reports_interface {d : InterfaceDecl} (hw : d.WellNamed) (hn : d.nodes.Nodup)
    (hc : Closed r d.nodes) :
    Reports ((TypeDecl.interface d).scopes.flatMap (repeated [])) r (interface r d) := by
  rw [InterfaceDecl.nodes, List.map_eq_flatMap] at hn hc
  rw [TypeDecl.scopes, List.flatMap_map]
  have hopen : Reports [] r (r.enter Arena.root d.name .interface d.id).1 :=
    (Reports.refl r).of_faults rfl rfl
  refine hopen.trans (Reports.foldl (List.nodup_cons.1 hn).2 ?_ ?_)
  · exact closed_enter _ _ _ (fun node hnode => hc node (List.mem_cons_of_mem _ hnode))
      (List.nodup_cons.1 hn).1
  · intro header hmem r' _ _
    exact ⟨grown_abstractMethod (hw.methods header hmem), reports_abstractMethod header⟩

end Resolved

/-- The clashes in a program are those of the repeated declarations in its scopes. -/
theorem clashes_resolve {program : Program} (hw : program.WellNamed) (hn : program.nodes.Nodup)
    (table : Types.Table) (hfit : ¬ (resolve program table).Crowded) :
    (resolve program table).clashes.Perm
      ((program.scopes.flatMap (repeated [])).map Binding.clash) := by
  have hreports : Resolved.Reports (program.declarations.flatMap fun d =>
      d.scopes.flatMap (repeated [])) ⟨typeNames program, #[], 0⟩ (resolve program table) := by
    refine Resolved.Reports.foldl hn (fun node _ => scopeOf_typeNames program node) ?_
    intro d hd r hn hc
    refine ⟨Resolved.grown_declaration (hw d hd) hn hc, ?_⟩
    cases d with
    | class_ d => exact Resolved.reports_class (hw _ hd) hn hc
    | interface d => exact Resolved.reports_interface (hw _ hd) hn hc
  rw [Program.scopes, List.flatMap_assoc]
  exact hreports.clashes hfit

/-- Every repeated declaration is reported where it stands, and nothing else is reported as
declared already: as many faults of this kind as there are declarations beyond the first of each
name in its scope. -/
theorem redeclarations_exact {source : String} {program : Program}
    (hparse : parseSource source = .ok program) (table : Types.Table)
    (hfit : ∀ f ∈ (resolve program table).faults, f.fault ≠ .tooManyLocals) :
    (resolve program table).faults.countP (fun f => f.fault.isClash) =
        (program.scopes.map fun ds => ds.length - distinct ds).sum ∧
      ∀ f ∈ (resolve program table).faults, f.fault.isClash →
        ∃ ds ∈ program.scopes, ∃ before d after, ds = before ++ d :: after ∧
          d.name ∈ before.map Binding.name ∧ f = d.clash := by
  obtain ⟨hw, hn⟩ := Lowering.wellNamed_of_parseSource hparse
  have hroom : ¬ (resolve program table).Crowded := by
    rintro ⟨f, hf, hcrowded⟩
    exact hfit f (Array.mem_toList_iff.1 hf) hcrowded
  have hperm := clashes_resolve hw hn table hroom
  refine ⟨?_, ?_⟩
  · rw [← Array.countP_toList, List.countP_eq_length_filter]
    show (resolve program table).clashes.length = _
    rw [hperm.length_eq, List.length_map, List.length_flatMap]
    simp only [Binding.length_repeated_nil]
  · intro f hf hclash
    have hmem : f ∈ (resolve program table).clashes :=
      List.mem_filter.2 ⟨Array.mem_toList_iff.2 hf, hclash⟩
    rw [hperm.mem_iff, List.mem_map] at hmem
    obtain ⟨d, hd, rfl⟩ := hmem
    obtain ⟨ds, hds, hd⟩ := List.mem_flatMap.1 hd
    obtain ⟨before, after, heq, hname⟩ := Binding.behind_of_mem_repeated hd
    exact ⟨ds, hds, before, d, after, heq, hname, rfl⟩

/-- A parameter, a variable of a block, one in the body of a loop and one without braces around it
are declared twice. The block has a scope of its own, and the loop too. -/
def redeclaring : String :=
  "class A \x7b void f(int a, int a) \x7b { int a; int a; } " ++
    "for (int i = 0; ; i = 1) { int i; } if (true) int a; \x7d \x7d"

theorem redeclaring_faults : ∃ program, parseSource redeclaring = .ok program ∧
    (Types.collect program).faults = #[] ∧
    (∀ f ∈ (resolve program (Types.collect program).table).faults, f.fault ≠ .tooManyLocals) ∧
    (resolve program (Types.collect program).table).faults.countP (fun f => f.fault.isClash) = 4 ∧
    ∀ f ∈ (resolve program (Types.collect program).table).faults, f.fault.isClash →
      ∃ ds ∈ program.scopes, ∃ before d after, ds = before ++ d :: after ∧
        d.name ∈ before.map Binding.name ∧ f = d.clash := by
  have hcheck : ((parseSource redeclaring).toOption.any fun program =>
      (Types.collect program).faults.isEmpty &&
        ((resolve program (Types.collect program).table).faults.all fun f =>
            decide (f.fault ≠ .tooManyLocals)) &&
        decide ((program.scopes.map fun ds => ds.length - distinct ds).sum = 4)) = true := by
    rw [parseSource, tokenize_ofList (s := redeclaring) (Source.append_ofList rfl rfl)]
    decide +kernel
  cases hparse : parseSource redeclaring with
  | error fault =>
    rw [hparse] at hcheck
    cases hcheck
  | ok program =>
    simp only [hparse, Except.toOption, Option.any_some, Bool.and_eq_true, Array.isEmpty_iff,
      Array.all_eq_true_iff_forall_mem, decide_eq_true_eq] at hcheck
    obtain ⟨⟨htypes, hfit⟩, hsum⟩ := hcheck
    obtain ⟨hcount, hplaces⟩ := redeclarations_exact hparse (Types.collect program).table hfit
    exact ⟨program, rfl, htypes, hfit, hcount.trans hsum, hplaces⟩

end Javelet.Scope
