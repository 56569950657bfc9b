import Javelet.Proofs.Lowering.Mirrors

/-!
# Statements and types under other numbers

Statements and types are lowered in step where expressions mean the same, the same is known of their
nodes, and the targets of jumps have corresponding numbers. What is said of the labels of a switch
holds of each of its cases alone, for a switch without cases draws no label for them.
-/
namespace Javelet.Lowering

open Assembly

/-! ## Surroundings -/

def Targets.relabel (ρ : Label → Label) (t : Targets) : Targets := ⟨t.continue_.map ρ, ρ t.break_⟩

/-- Surroundings in which the code of some nodes is the same up to the numbers of labels. -/
structure Env.Alike (ρ : Label → Label) (nodes : List NodeId) (env env' : Env) : Prop extends
    env.Sees env' where
  known : ∀ n ∈ nodes, env.arena.Alike n env'.arena
  targets : env'.targets = env.targets.map (Targets.relabel ρ)

variable {env env' : Env} {ρ : Label → Label} {nodes : List NodeId} {p : Position}

namespace Env.Alike

variable (h : env.Alike ρ nodes env')

include h

theorem enter {node : NodeId} (hnode : node ∈ nodes) :
    (env.enter node).Alike ρ nodes (env'.enter node) := by
  refine ⟨⟨h.table, h.className, ?_⟩, h.known, h.targets⟩
  have hseen := (h.known node hnode).seen
  unfold Env.enter
  cases hscope : env.arena.scopeOf node with
  | none =>
    rw [hscope, Option.map_none, Option.map_eq_none_iff] at hseen
    rw [hseen]
    exact h.lookup
  | some id =>
    rw [hscope, Option.map_some, Option.map_eq_some_iff] at hseen
    obtain ⟨id', hscope', hlookup⟩ := hseen
    rw [hscope']
    exact hlookup

theorem inside (t : Targets) : (env.inside t).Alike ρ nodes (env'.inside (t.relabel ρ)) := by
  refine ⟨⟨h.table, h.className, h.lookup⟩, h.known, ?_⟩
  rw [Env.inside, Env.inside, h.targets, List.map_cons]

theorem breakTarget? : env'.breakTarget? = env.breakTarget?.map ρ := by
  rw [Env.breakTarget?, Env.breakTarget?, h.targets, List.head?_map, Option.map_map, Option.map_map]
  rfl

theorem continueTarget? : env'.continueTarget? = env.continueTarget?.map ρ := by
  rw [Env.continueTarget?, Env.continueTarget?, h.targets]
  induction env.targets with
  | nil => rfl
  | cons t ts ih =>
    rw [List.map_cons, List.findSome?_cons, List.findSome?_cons, ih]
    cases hcontinue : t.continue_ with
    | none => simp [Targets.relabel, hcontinue]
    | some l => simp [Targets.relabel, hcontinue]

end Env.Alike

/-! ## Assignments -/

@[simp] theorem relabel_assigning (op : AssignOp) (old : List Instruction) (value : Segment)
    (store : Instruction) : relabel ρ (assigning op old value store) =
      assigning op (old.map (Instruction.relabel ρ)) (relabel ρ value) (store.relabel ρ) := by
  have hcombination : (combination op).map (Instruction.relabel ρ) = combination op := by
    cases op <;> rfl
  simp [assigning, hcombination]

theorem storeLocal_mirrors (l : Local) (op : AssignOp) (value : Typed) :
    Mirrors ρ (relabel ρ) (storeLocal l op p value) (storeLocal l op p (value.relabel ρ)) := by
  refine .steady fun first code next hy => ?_
  obtain ⟨rfl, rfl, hint⟩ := yields_storeLocal.1 hy
  exact ⟨rfl, fun first' => yields_storeLocal.2 ⟨rfl, by simp, hint⟩⟩

theorem storeField_mirrors (owner name : String) (ty : Ty) (op : AssignOp) (value : Typed) :
    Mirrors ρ (relabel ρ) (storeField owner name ty op p value)
      (storeField owner name ty op p (value.relabel ρ)) := by
  refine .steady fun first code next hy => ?_
  obtain ⟨rfl, rfl, hint⟩ := yields_storeField.1 hy
  exact ⟨rfl, fun first' => yields_storeField.2 ⟨rfl, by simp [Instruction.relabel], hint⟩⟩

theorem storeElement_mirrors (ty : Ty) (op : AssignOp) (value : Typed) :
    Mirrors ρ (relabel ρ) (storeElement ty op p value)
      (storeElement ty op p (value.relabel ρ)) := by
  refine .steady fun first code next hy => ?_
  obtain ⟨rfl, rfl, hint⟩ := yields_storeElement.1 hy
  exact ⟨rfl, fun first' => yields_storeElement.2 ⟨rfl, by simp [Instruction.relabel], hint⟩⟩

section Assignments

variable (h : env.Sees env')

include h

theorem assignName_mirrors (name : String) (op : AssignOp) (value : Expr) :
    Mirrors ρ (relabel ρ) (assignName env name p op value) (assignName env' name p op value) := by
  unfold assignName
  rw [h.local?, h.className]
  split
  · exact (expr_mirrors h value).bind fun v => storeLocal_mirrors _ op v
  · refine (property_mirrors h _ name p).bind fun found => (expr_mirrors h value).bind fun v => ?_
    exact (storeField_mirrors found.1 name found.2 op v).bind fun code => .pure rfl

theorem index_mirrors (e : Expr) : Mirrors ρ (relabel ρ) (index env e) (index env' e) := by
  unfold index
  exact (expr_mirrors h e).bind fun v => asIndex_mirrors e.position v

theorem assignLink_mirrors (receiver : Receiver) (start : Position) (last : Link) (op : AssignOp)
    (value : Expr) : Mirrors ρ (relabel ρ) (assignLink env receiver start last op value)
      (assignLink env' receiver start last op value) := by
  unfold assignLink
  split
  · split
    · refine (property_mirrors h _ _ _).bind fun found => (expr_mirrors h value).bind fun v => ?_
      exact storeField_mirrors found.1 _ found.2 op v
    · exact .refuse
  · split
    · refine (index_mirrors h _).bind fun code => (expr_mirrors h value).bind fun v => ?_
      exact (storeElement_mirrors _ op v).bind fun store => .pure (by simp)
    · exact .refuse
  · exact .refuse

theorem assignment_mirrors (a : Assignment) :
    Mirrors ρ (relabel ρ) (assignment env a) (assignment env' a) := by
  unfold assignment
  dsimp only
  split
  · split
    · exact assignName_mirrors h _ a.op a.value
    · exact .refuse
  · refine (head_mirrors h fun e _ => expr_mirrors h e).bind fun start => ?_
    refine (links_mirrors h start fun _ _ e _ => expr_mirrors h e).bind fun reached => ?_
    exact (assignLink_mirrors h reached.receiver _ _ a.op a.value).bind fun code => .pure (by simp)

theorem variable_mirrors (v : Variable) :
    Mirrors ρ (relabel ρ) (variable_ env v) (variable_ env' v) := by
  unfold variable_
  refine Mirrors.bind (f := id) (.require (by simp [h.local?])) fun l => ?_
  cases v.value with
  | none => exact .pure (by simp)
  | some value => exact (expr_mirrors h value).bind fun typed => storeLocal_mirrors l .plain typed

/-! ## Simple statements -/

theorem action_mirrors (a : Action) : Mirrors ρ (relabel ρ) (action env a) (action env' a) := by
  cases a with
  | assignment a => exact assignment_mirrors h a
  | call c =>
    refine (chain_mirrors h c).bind fun v => .pure ?_
    rw [Typed.relabel_type, Typed.relabel_code]
    split
    · rfl
    · simp [Instruction.relabel]

theorem test_mirrors (e : Expr) (yes no : Label) :
    Mirrors ρ (relabel ρ) (test env e yes no) (test env' e (ρ yes) (ρ no)) := by
  unfold test condition
  refine (asCondition_mirrors (expr_mirrors h e)).bind fun code => .pure ?_
  simp [Instruction.relabel]

theorem forInit_mirrors (init : Option ForInit) :
    Mirrors ρ (relabel ρ) (forInit env init) (forInit env' init) := by
  match init with
  | none => exact .pure rfl
  | some (.declaration v) => exact variable_mirrors h v
  | some (.assignment a) => exact assignment_mirrors h a

theorem forTest_mirrors (e : Option Expr) (yes no : Label) :
    Mirrors ρ (relabel ρ) (forTest env e yes no) (forTest env' e (ρ yes) (ρ no)) := by
  cases e with
  | none => exact .pure rfl
  | some e => exact test_mirrors h e yes no

theorem forUpdate_mirrors (update : Option Action) :
    Mirrors ρ (relabel ρ) (forUpdate env update) (forUpdate env' update) := by
  cases update with
  | none => exact .pure rfl
  | some a => exact action_mirrors h a

theorem selector_mirrors (e : Expr) (l : Local) :
    Mirrors ρ (relabel ρ) (selector env e l) (selector env' e l) := by
  unfold selector
  refine (expr_mirrors h e).bind fun v => ?_
  rw [Typed.relabel_type]
  split
  · exact .pure (by simp)
  · exact .refuse

end Assignments

theorem jump_mirrors (h : env.Alike ρ nodes env') (j : Jump) :
    Mirrors ρ (relabel ρ) (jump env p j) (jump env' p j) := by
  match j with
  | .return_ none => exact .pure rfl
  | .return_ (some value) =>
    refine (expr_mirrors h.toSees value).bind fun v => .pure ?_
    rw [Typed.relabel_type]
    split <;> simp [Instruction.relabel]
  | .break_ => exact (Mirrors.require h.breakTarget?).bind fun target => .pure rfl
  | .continue_ => exact (Mirrors.require h.continueTarget?).bind fun target => .pure rfl

/-- The cases of a switch have consecutive labels. -/
theorem caseTests_mirrors {l : Local} {cases : List Case} {label label' : Nat}
    (hlabels : Shifts ρ label label' cases.length) :
    Mirrors ρ (relabel ρ) (caseTests l label cases) (caseTests l label' cases) := by
  refine .steady fun first code next hy => ⟨yields_caseTests_next hy, fun first' => ?_⟩
  induction cases generalizing label label' code with
  | nil =>
    obtain ⟨-, rfl⟩ := yields_caseTests_nil.1 hy
    exact yields_caseTests_nil.2 ⟨rfl, rfl⟩
  | cons c cases ih =>
    obtain ⟨value, rest, hvalue, hrest, rfl⟩ := yields_caseTests_cons.1 hy
    refine yields_caseTests_cons.2 ⟨value, _, hvalue, ih hlabels.tail rest hrest, ?_⟩
    rw [← hlabels.head, relabel_append]
    rfl

/-! ## Statements -/

/-- What is shown of every statement. -/
def KeepsStep (s : Statement) : Prop :=
  ∀ {env env' ρ nodes} join, Env.Alike ρ nodes env env' → (∀ n ∈ s.nodes, n ∈ nodes) →
    Mirrors ρ (relabel ρ) (statement env join s) (statement env' (join.map ρ) s)

theorem statements_mirrors {ss : List Statement} (ih : ∀ s ∈ ss, KeepsStep s) (done : List Segment)
    (h : env.Alike ρ nodes env') (hn : ∀ n ∈ statementNodes ss, n ∈ nodes) :
    Mirrors ρ (relabel ρ) (statements env done ss)
      (statements env' (done.map (relabel ρ)) ss) := by
  induction ss generalizing done with
  | nil =>
    rw [statements, statements]
    exact .pure (by rw [relabel_flatten, List.map_reverse])
  | cons s ss ihss =>
    rw [List.forall_mem_cons] at ih
    rw [statementNodes, List.forall_mem_append] at hn
    rw [statements, statements]
    exact (ih.1 none h hn.1).bind fun code => ihss ih.2 (code :: done) hn.2

theorem block_mirrors {b : Block} (ih : ∀ s ∈ b.statements, KeepsStep s)
    (h : env.Alike ρ nodes env') (hn : ∀ n ∈ b.nodes, n ∈ nodes) :
    Mirrors ρ (relabel ρ) (block env b) (block env' b) := by
  rw [Block.nodes_eq, List.forall_mem_cons] at hn
  obtain ⟨id, q, ss⟩ := b
  rw [block, block]
  exact statements_mirrors ih [] (h.enter hn.1) hn.2

theorem caseBodies_mirrors {cases : List Case} {label label' : Nat}
    (ih : ∀ c ∈ cases, ∀ s ∈ c.body.statements, KeepsStep s) (done : List Segment)
    (h : env.Alike ρ nodes env') (hn : ∀ n ∈ caseNodes cases, n ∈ nodes)
    (hlabels : Shifts ρ label label' cases.length) :
    Mirrors ρ (relabel ρ) (caseBodies env done label cases)
      (caseBodies env' (done.map (relabel ρ)) label' cases) := by
  induction cases generalizing done label label' with
  | nil =>
    rw [caseBodies, caseBodies]
    exact .pure (by rw [relabel_flatten, List.map_reverse])
  | cons c cases ihc =>
    obtain ⟨q, q', literal, b⟩ := c
    rw [List.forall_mem_cons] at ih
    rw [caseNodes, List.forall_mem_append] at hn
    rw [caseBodies, caseBodies]
    refine (block_mirrors ih.1 h hn.1).bind fun code => ?_
    have hrest := ihc ih.2 ((.label label :: code) :: done) hn.2 hlabels.tail
    rw [List.map_cons, relabel_cons, Item.relabel_label, hlabels.head] at hrest
    exact hrest

theorem defaultBody_mirrors {default_ : Option Block} {label label' : Label}
    (ih : ∀ b ∈ default_, ∀ s ∈ b.statements, KeepsStep s) (h : env.Alike ρ nodes env')
    (hn : ∀ n ∈ defaultNodes default_, n ∈ nodes)
    (hlabel : default_.isSome = true → ρ label = label') :
    Mirrors ρ (relabel ρ) (defaultBody env label default_) (defaultBody env' label' default_) := by
  cases default_ with
  | none =>
    rw [defaultBody, defaultBody]
    exact .pure rfl
  | some b =>
    rw [defaultNodes] at hn
    rw [defaultBody, defaultBody]
    refine (block_mirrors (ih b rfl) h hn).bind fun code => .pure ?_
    rw [relabel_cons, Item.relabel_label, hlabel rfl]

theorem elseBranch_mirrors {otherwise : Option Statement} (ih : ∀ s ∈ otherwise, KeepsStep s)
    (next finish : Label) (h : env.Alike ρ nodes env')
    (hn : ∀ n ∈ otherwiseNodes otherwise, n ∈ nodes) :
    Mirrors ρ (relabel ρ) (elseBranch env next finish otherwise)
      (elseBranch env' (ρ next) (ρ finish) otherwise) := by
  cases otherwise with
  | none =>
    rw [elseBranch, elseBranch]
    exact .pure rfl
  | some s =>
    rw [otherwiseNodes] at hn
    rw [elseBranch, elseBranch]
    split
    · exact (ih s rfl (some finish) h hn).bind fun code => .pure rfl
    · refine (ih s rfl none h hn).bind fun code => .pure ?_
      simp [Instruction.relabel]

theorem conditional_mirrors {e : Expr} {body : Statement} {otherwise : Option Statement}
    (ihbody : KeepsStep body) (ihother : ∀ s ∈ otherwise, KeepsStep s) (join : Option Label)
    (h : env.Alike ρ nodes env') (hbody : ∀ n ∈ body.nodes, n ∈ nodes)
    (hother : ∀ n ∈ otherwiseNodes otherwise, n ∈ nodes) :
    Mirrors ρ (relabel ρ) (statement env join (.conditional p e body otherwise))
      (statement env' (join.map ρ) (.conditional p e body otherwise)) := by
  rw [statement, statement]
  refine Mirrors.freshLabel.bind fun yes => Mirrors.freshLabel.bind fun no => ?_
  rw [Option.getD_map, Option.isNone_map]
  refine Mirrors.freshOr fun next => ?_
  refine (test_mirrors h.toSees e yes next).bind fun decision => ?_
  refine (ihbody none h hbody).bind fun inner => ?_
  refine (elseBranch_mirrors ihother next (join.getD no) h hother).bind fun rest => .pure ?_
  cases join <;> simp [Instruction.relabel]

theorem whileLoop_mirrors {e : Expr} {body : Statement} (ih : KeepsStep body) (join : Option Label)
    (h : env.Alike ρ nodes env') (hbody : ∀ n ∈ body.nodes, n ∈ nodes) :
    Mirrors ρ (relabel ρ) (statement env join (.whileLoop p e body))
      (statement env' (join.map ρ) (.whileLoop p e body)) := by
  rw [statement, statement]
  refine Mirrors.freshLabel.bind fun top => Mirrors.freshLabel.bind fun start =>
    Mirrors.freshLabel.bind fun bottom => ?_
  refine (test_mirrors h.toSees e start bottom).bind fun decision => ?_
  refine (ih none (h.inside ⟨some top, bottom⟩) hbody).bind fun inner => .pure ?_
  simp [Instruction.relabel]

theorem forLoop_mirrors {id : NodeId} {init : Option ForInit} {e : Option Expr}
    {update : Option Action} {body : Statement} (ih : KeepsStep body) (join : Option Label)
    (h : env.Alike ρ nodes env') (hid : id ∈ nodes) (hbody : ∀ n ∈ body.nodes, n ∈ nodes) :
    Mirrors ρ (relabel ρ) (statement env join (.forLoop p id init e update body))
      (statement env' (join.map ρ) (.forLoop p id init e update body)) := by
  have hinner := h.enter hid
  rw [statement, statement]
  refine (forInit_mirrors hinner.toSees init).bind fun before => ?_
  refine Mirrors.freshLabel.bind fun top => Mirrors.freshLabel.bind fun start =>
    Mirrors.freshLabel.bind fun step => Mirrors.freshLabel.bind fun bottom => ?_
  refine (forTest_mirrors hinner.toSees e start bottom).bind fun decision => ?_
  refine (ih none (hinner.inside ⟨some step, bottom⟩) hbody).bind fun inner => ?_
  refine (forUpdate_mirrors hinner.toSees update).bind fun after => .pure ?_
  simp [Instruction.relabel]

/-- A switch draws labels for its cases and its default body behind its selector. -/
theorem switch_mirrors {id : NodeId} {e : Expr} {cases : List Case} {default_ : Option Block}
    (ihc : ∀ c ∈ cases, ∀ s ∈ c.body.statements, KeepsStep s)
    (ihd : ∀ b ∈ default_, ∀ s ∈ b.statements, KeepsStep s) (join : Option Label)
    (h : env.Alike ρ nodes env') (hid : id ∈ nodes) (hcases : ∀ n ∈ caseNodes cases, n ∈ nodes)
    (hdefault : ∀ n ∈ defaultNodes default_, n ∈ nodes) :
    Mirrors ρ (relabel ρ) (statement env join (.switch p id e cases default_))
      (statement env' (join.map ρ) (.switch p id e cases default_)) := by
  intro first code next hy
  obtain ⟨slot, store, tests, bodies, last, label, miss, finish, middle, hmiss, hfinish, hslot, hs,
    ht, hb, hl, rfl⟩ := yields_switch.1 hy
  have hbodies := (caseBodies_count (fun _ _ s _ => statement_labelled s) hb).1
  have hlast := (defaultBody_count (fun _ _ s _ => statement_labelled s) hl).1
  obtain ⟨n, rfl⟩ := Nat.exists_eq_add_of_le (selector_labelled hs).le
  obtain ⟨i, rfl⟩ := Nat.exists_eq_add_of_le hbodies
  obtain ⟨j, rfl⟩ := Nat.exists_eq_add_of_le hlast
  refine ⟨n + (cases.length + (default_.toList.length + (1 + (i + j)))), by omega, ?_⟩
  intro first' hρ
  -- the labels of the switch, in the order in which they are drawn
  have hcaseLabels := hρ.right
  have hmissLabel := hcaseLabels.right
  rw [← hmiss] at hmissLabel
  have hfinishLabel := hmissLabel.right
  rw [← hfinish] at hfinishLabel
  have hmiss' : ρ miss = first' + n + cases.length := hmissLabel 0 (by omega)
  have hfinish' := hfinishLabel.left.head
  have hinside := h.inside ⟨none, finish⟩
  rw [Targets.relabel, hfinish'] at hinside
  have hstore := (selector_mirrors h.toSees e ⟨slot, .int⟩).yields hs hρ.left
  have htests := (caseTests_mirrors hcaseLabels.left).yields ht
    (.zero ρ (finish + 1) (first' + n + cases.length + default_.toList.length + 1))
  have hcaseBodies := (caseBodies_mirrors ihc [] hinside hcases hcaseLabels.left).yields hb
    hfinishLabel.right.left
  have hdefaultBody := (defaultBody_mirrors ihd hinside hdefault fun _ => hmiss').yields hl
    hfinishLabel.right.right
  have hnext : first' + (n + (cases.length + (default_.toList.length + (1 + (i + j))))) =
      first' + n + cases.length + default_.toList.length + 1 + i + j := by omega
  rw [hnext]
  refine yields_switch.2 ⟨slot, _, _, _, _, _, _, _, _, rfl, rfl, ?_, hstore, htests, hcaseBodies,
    hdefaultBody, ?_⟩
  · rw [(h.known id hid).reservedSlot]
    exact hslot
  · simp [Instruction.relabel, hmiss', hfinish']

theorem keepsStep (s : Statement) : KeepsStep s := by
  induction s using Statement.induction with
  | block b ih =>
    intro env env' ρ nodes join h hn
    rw [Statement.nodes] at hn
    rw [statement, statement]
    exact block_mirrors ih h hn
  | conditional p e body otherwise ihbody ihother =>
    intro env env' ρ nodes join h hn
    rw [Statement.nodes, List.forall_mem_append] at hn
    exact conditional_mirrors ihbody ihother join h hn.1 hn.2
  | whileLoop p e body ih =>
    intro env env' ρ nodes join h hn
    rw [Statement.nodes] at hn
    exact whileLoop_mirrors ih join h hn
  | forLoop p id init e update body ih =>
    intro env env' ρ nodes join h hn
    rw [Statement.nodes, List.forall_mem_cons] at hn
    exact forLoop_mirrors ih join h hn.1 hn.2
  | switch p id e cases default_ ihc ihd =>
    intro env env' ρ nodes join h hn
    rw [Statement.nodes, List.forall_mem_cons, List.forall_mem_append] at hn
    exact switch_mirrors ihc ihd join h hn.1 hn.2.1 hn.2.2
  | jump p j =>
    intro env env' ρ nodes join h hn
    rw [statement, statement]
    exact jump_mirrors h j
  | action a =>
    intro env env' ρ nodes join h hn
    rw [statement, statement]
    exact action_mirrors h.toSees a
  | declaration v =>
    intro env env' ρ nodes join h hn
    rw [statement, statement]
    exact variable_mirrors h.toSees v

/-! ## Methods -/

section Members

variable (h : env.Alike ρ nodes env')

include h

theorem initializer_mirrors (q : Property) :
    Mirrors ρ (relabel ρ) (initializer env q) (initializer env' q) := by
  have hstore : ∀ value : Segment,
      .op .loadThis :: relabel ρ value ++
          ops [.putField env.className q.variable_.name q.variable_.type] =
        relabel ρ (.op .loadThis :: value ++
          ops [.putField env.className q.variable_.name q.variable_.type]) := by
    intro value
    rw [relabel_append]
    rfl
  unfold initializer
  rw [h.className]
  dsimp only
  cases q.variable_.value with
  | none => exact Mirrors.bind (f := relabel ρ) (.pure (by simp)) fun value => .pure (hstore value)
  | some e =>
    exact Mirrors.bind (f := relabel ρ) (.map (expr_mirrors h.toSees e) fun v => rfl) fun value =>
      .pure (hstore value)

theorem prologue_mirrors (superclass : String) (properties : List Property) :
    Mirrors ρ (relabel ρ) (prologue env superclass properties)
      (prologue env' superclass properties) := by
  unfold prologue
  refine (Mirrors.mapM fun q _ => initializer_mirrors h q).bind fun values => .pure ?_
  rw [relabel_append, relabel_flatten]
  rfl

theorem methodCode_mirrors (header : Header) (before : Segment) {m : Method}
    (hm : ∀ n ∈ m.nodes, n ∈ nodes) :
    Mirrors ρ (MethodCode.relabel ρ) (methodCode env header before m)
      (methodCode env' header (relabel ρ before) m) := by
  rw [Method.nodes, List.forall_mem_cons] at hm
  unfold methodCode
  refine (block_mirrors (fun s _ => keepsStep s) (h.enter hm.1) hm.2).bind fun body => .pure ?_
  rw [(h.known _ hm.1).localsOf, MethodCode.relabel, relabel_append]

theorem method_mirrors {m : Method} (hm : ∀ n ∈ m.nodes, n ∈ nodes) :
    Mirrors ρ (MethodCode.relabel ρ) (method env m) (method env' m) :=
  methodCode_mirrors h _ [] hm

theorem constructor_mirrors (superclass : String) (properties : List Property) {m : Method}
    (hm : ∀ n ∈ m.nodes, n ∈ nodes) :
    Mirrors ρ (MethodCode.relabel ρ) (constructor env superclass properties m)
      (constructor env' superclass properties m) :=
  (prologue_mirrors h superclass properties).bind fun before => methodCode_mirrors h _ before hm

theorem defaultConstructor_mirrors (superclass : String) (properties : List Property) :
    Mirrors ρ (MethodCode.relabel ρ) (defaultConstructor env superclass properties)
      (defaultConstructor env' superclass properties) :=
  (prologue_mirrors h superclass properties).bind fun _ => .pure rfl

end Members

/-! ## Types -/

theorem Env.Alike.classEnv {d : ClassDecl} (h : env.Alike ρ nodes env') (hid : d.id ∈ nodes) :
    (classEnv env d).Alike ρ nodes (classEnv env' d) := by
  have hinner := h.enter hid
  exact ⟨⟨hinner.table, rfl, hinner.lookup⟩, hinner.known, hinner.targets⟩

theorem class_mirrors {d : ClassDecl} (h : env.Alike ρ d.nodes env') :
    Mirrors ρ (ClassSection.relabel ρ) (class_ env d) (class_ env' d) := by
  have hinner := h.classEnv (List.mem_cons_self ..)
  have hmethod : ∀ m ∈ d.constructors ++ d.methods ++ d.main.toList, ∀ n ∈ m.nodes, n ∈ d.nodes :=
    fun m hm n hn => List.mem_cons_of_mem _ (List.mem_flatMap.2 ⟨m, hm, hn⟩)
  rw [List.append_assoc] at hmethod
  unfold class_
  rw [h.table.lookup]
  cases env'.table.lookup d.name with
  | error fault => exact .refuse_bind
  | ok info =>
    refine Mirrors.bind (f := id) (.pure rfl) fun info => ?_
    refine (Mirrors.mapM fun m hm => constructor_mirrors hinner _ _
      (hmethod m (List.mem_append_left _ hm))).bind fun constructors => ?_
    refine (Mirrors.mapM fun m hm => method_mirrors hinner
      (hmethod m (List.mem_append_right _ hm))).bind fun methods => ?_
    split
    · refine Mirrors.bind (.map (g := List.map (MethodCode.relabel ρ))
        (defaultConstructor_mirrors hinner _ _) fun mc => rfl) fun default_ => .pure ?_
      simp [ClassSection.relabel]
    · refine Mirrors.bind (f := List.map (MethodCode.relabel ρ)) (.pure rfl) fun default_ => .pure ?_
      simp [ClassSection.relabel]

/-- The code of a type does not depend on what else is known in its surroundings. -/
theorem typeDecl_mirrors {d : TypeDecl} (h : env.Alike ρ d.nodes env') :
    Mirrors ρ (Section.relabel ρ) (typeDecl env d) (typeDecl env' d) := by
  cases d with
  | class_ d => exact .map (class_mirrors h) fun c => rfl
  | interface d => exact .pure rfl

end Javelet.Lowering
