import Javelet.Proofs.Scope.Walk

/-!
# The walk over declarations

Each method is walked in a scope of its own, and its slots are counted anew. The scopes that are
there before a method or a class stay as they are. The scope of a class holds its members, and the
scope of the program holds the names of types.
-/
namespace Javelet.Scope

/-- What the walk over declarations does: scopes that are there stay as they are, variables in slots
have types of values, and something is recorded of the nodes `nodes` only. -/
structure Grown (nodes : List NodeId) (r r' : Resolved) : Prop where
  size : r.arena.size ≤ r'.arena.size
  parent : ∀ id < r.arena.size, r'.arena.parentOf id = r.arena.parentOf id
  same : ∀ id < r.arena.size, ∀ name, r'.arena.lookupLocal id name = r.arena.lookupLocal id name
  values : r.arena.HoldsValues → r'.arena.HoldsValues
  attached : ∀ node, node ∉ nodes → r.arena.SameAt node r'.arena
  faults : r'.faults = #[] → r.faults = #[]

namespace Grown

variable {r r' r'' : Resolved} {nodes nodes' : List NodeId}

theorem refl (r : Resolved) : Grown nodes r r :=
  ⟨Nat.le_refl _, fun _ _ => rfl, fun _ _ _ => rfl, id, fun node _ => .refl node _, id⟩

theorem trans (h : Grown nodes r r') (h' : Grown nodes' r' r'') :
    Grown (nodes ++ nodes') r r'' := by
  refine ⟨Nat.le_trans h.size h'.size, ?_, ?_, fun hv => h'.values (h.values hv), ?_,
    fun hf => h.faults (h'.faults hf)⟩
  · intro id hid
    rw [h'.parent id (Nat.lt_of_lt_of_le hid h.size), h.parent id hid]
  · intro id hid name
    rw [h'.same id (Nat.lt_of_lt_of_le hid h.size), h.same id hid]
  · intro node hnode
    rw [List.mem_append, not_or] at hnode
    exact (h.attached node hnode.1).trans (h'.attached node hnode.2)

end Grown

/-- A walk in a scope that is opened for it. -/
theorem Walked.grown {r r' : Resolved} {nodes : List NodeId}
    (h : Walked r.arena.size nodes r r') : Grown nodes r r' :=
  ⟨h.size, h.parent, fun id hid => h.outside id hid (Nat.ne_of_lt hid), h.values, h.attached,
    h.faults⟩

/-- Walks of list members make a walk of the list. -/
theorem Grown.foldl {α : Type} {f : Resolved → α → Resolved} {nodes : α → List NodeId}
    {xs : List α} {r : Resolved} (hn : (xs.flatMap nodes).Nodup) (hc : Closed r (xs.flatMap nodes))
    (hf : ∀ x ∈ xs, ∀ r, (nodes x).Nodup → Closed r (nodes x) → Grown (nodes x) r (f r x)) :
    Grown (xs.flatMap nodes) r (xs.foldl f r) := by
  induction xs generalizing r with
  | nil => exact .refl r
  | cons x xs ih =>
    rw [List.flatMap_cons] at hn hc ⊢
    have hx := hf x (List.mem_cons_self ..) r (List.nodup_append.1 hn).1 hc.left
    refine hx.trans (ih (List.nodup_append.1 hn).2.1 ?_
      fun y hy => hf y (List.mem_cons_of_mem _ hy))
    intro node hnode
    have hother : node ∉ nodes x :=
      fun hmem => (List.nodup_append.1 hn).2.2 node hmem node hnode rfl
    rw [(hx.attached node hother).scopeOf]
    exact hc.right node hnode

/-! ## Methods -/

namespace Resolved

/-- The state in which the body of a method is walked: its scope is open and holds the
parameters. -/
def atBody (ctx : Context) (r : Resolved) (m : Method) : Resolved :=
  let opened := (r.enter ctx.scope m.signature.text .method m.signature.id).1
  params r.arena.size { opened with
    arena := opened.arena.attach m.body.id r.arena.size
    nextSlot := if m.signature.isStatic then 0 else 1 } m.signature.params

/-- The place from which the body of a method looks names up. -/
def bodyContext (ctx : Context) (r : Resolved) (m : Method) : Context :=
  { ctx with isStatic := m.signature.isStatic, scope := r.arena.size }

theorem method_eq (ctx : Context) (r : Resolved) (m : Method) :
    let walked := statements (bodyContext ctx r m) (atBody ctx r m) m.body.statements
    method ctx r m = { walked with
      arena := walked.arena.setLocals m.signature.id walked.nextSlot } := rfl

variable {ctx : Context} {r : Resolved} {m : Method}

theorem walked_atBody (h : m.signature.WellNamed) :
    Walked r.arena.size [m.signature.id, m.body.id]
      { r with nextSlot := if m.signature.isStatic then 0 else 1 } (atBody ctx r m) :=
  walked_enter (walked_attach (walked_params h.params))

theorem closed_atBody (h : m.signature.WellNamed) (hn : m.nodes.Nodup) (hc : Closed r m.nodes) :
    Closed (atBody ctx r m) (statementNodes m.body.statements) := by
  rw [Method.nodes, Block.nodes_eq] at hn hc
  intro node hnode
  have hne : node ∉ [m.signature.id, m.body.id] := by
    simp only [List.nodup_cons, List.mem_cons, not_or] at hn
    simp only [List.mem_cons, List.not_mem_nil, or_false, not_or]
    refine ⟨?_, ?_⟩
    · rintro rfl
      exact hn.1.2 hnode
    · rintro rfl
      exact hn.2.1 hnode
  rw [((walked_atBody h).attached node hne).scopeOf]
  exact hc node (List.mem_cons_of_mem _ (List.mem_cons_of_mem _ hnode))

/-- The statements of a method are walked in its scope. -/
theorem walked_body (h : m.WellNamed) (hn : m.nodes.Nodup) (hc : Closed r m.nodes) :
    Walked r.arena.size (statementNodes m.body.statements) (atBody ctx r m)
      (statements (bodyContext ctx r m) (atBody ctx r m) m.body.statements) := by
  have hbody : (statementNodes m.body.statements).Nodup := by
    rw [Method.nodes, Block.nodes_eq, List.nodup_cons, List.nodup_cons] at hn
    exact hn.2.2
  exact @walked_statements (bodyContext ctx r m) _ _ (fun s _ => walks s) h.body hbody
    (closed_atBody h.signature hn hc)

theorem grown_method (h : m.WellNamed) (hn : m.nodes.Nodup) (hc : Closed r m.nodes) :
    Grown m.nodes r (method ctx r m) := by
  have hw := (@walked_atBody ctx r m h.signature).trans (walked_body h hn hc)
  rw [method_eq, Method.nodes, Block.nodes_eq]
  refine ⟨hw.size, hw.parent, fun id hid => hw.outside id hid (Nat.ne_of_lt hid), hw.values, ?_,
    hw.faults⟩
  intro node hnode
  refine (hw.attached node hnode).trans (Arena.sameAt_setLocals ?_ _ _)
  exact fun he => hnode (he ▸ List.mem_cons_self ..)

theorem grown_abstractMethod {scope : ScopeId} {header : Signature} (h : header.WellNamed) :
    Grown [header.id] r (abstractMethod scope r header) := by
  have hw : Walked r.arena.size [header.id] { r with nextSlot := 1 }
      (params r.arena.size { (r.enter scope header.text .method header.id).1 with nextSlot := 1 }
        header.params) :=
    walked_enter (walked_params h.params)
  refine ⟨hw.size, hw.parent, fun id hid => hw.outside id hid (Nat.ne_of_lt hid), hw.values, ?_,
    hw.faults⟩
  intro node hnode
  refine (hw.attached node hnode).trans (Arena.sameAt_setLocals ?_ _ _)
  exact fun he => hnode (he ▸ List.mem_cons_self ..)

end Resolved

/-! ## Members -/

/-- Names are entered into one scope, each with an entry as given. -/
structure Enters (fits : String → Entry → Prop) (scope : ScopeId) (a a' : Arena) : Prop where
  size : a'.size = a.size
  parent : ∀ id, a'.parentOf id = a.parentOf id
  attached : ∀ node, a.SameAt node a'
  outside : ∀ id name, id ≠ scope → a'.lookupLocal id name = a.lookupLocal id name
  entries : ∀ name e, a'.lookupLocal scope name = some e →
    a.lookupLocal scope name = some e ∨ fits name e

namespace Enters

variable {fits : String → Entry → Prop} {scope : ScopeId} {a a' a'' : Arena}

theorem refl (a : Arena) : Enters fits scope a a :=
  ⟨rfl, fun _ => rfl, fun node => .refl node _, fun _ _ _ => rfl, fun _ _ h => .inl h⟩

theorem trans (h : Enters fits scope a a') (h' : Enters fits scope a' a'') :
    Enters fits scope a a'' := by
  refine ⟨h'.size.trans h.size, ?_, ?_, ?_, ?_⟩
  · intro id
    rw [h'.parent, h.parent]
  · intro node
    exact (h.attached node).trans (h'.attached node)
  · intro id name hne
    rw [h'.outside id name hne, h.outside id name hne]
  · intro name e he
    rcases h'.entries name e he with he | hfit
    · exact h.entries name e he
    · exact .inr hfit

theorem insertNew {name : String} {e : Entry} (h : fits name e) :
    Enters fits scope a (a.insertNew scope name e) := by
  unfold Arena.insertNew Arena.insert
  split
  · rename_i heq
    split at heq
    · cases heq
    · cases heq
      refine ⟨Arena.size_put .., fun id => Arena.parentOf_put .., fun _ => ⟨rfl, rfl, rfl⟩, ?_, ?_⟩
      · intro id n hne
        exact Arena.lookupLocal_put_of_ne (.inl hne)
      · intro n e' he
        by_cases hn : n = name
        · subst hn
          exact .inr (Arena.lookupLocal_put_self he ▸ h)
        · rw [Arena.lookupLocal_put_of_ne (.inr hn)] at he
          exact .inl he
  · exact .refl a

theorem foldl {α : Type} (name : α → String) (entry : α → Entry) {xs : List α}
    (h : ∀ x ∈ xs, fits (name x) (entry x)) :
    Enters fits scope a (xs.foldl (fun a x => a.insertNew scope (name x) (entry x)) a) := by
  refine List.foldlRecOn (motive := fun a' => Enters fits scope a a') _ _ (.refl a) ?_
  intro a' ha x hx
  exact ha.trans (insertNew (h x hx))

/-- Entries without slots do not matter for what is held in slots. -/
theorem holdsValues (h : Enters fits scope a a') (hfits : ∀ n e, fits n e → e.slot = none)
    (ha : a.HoldsValues) : a'.HoldsValues := by
  intro id name ty s he
  by_cases hid : id = scope
  · subst hid
    rcases h.entries name _ he with he | hfit
    · exact ha id name ty s he
    · cases hfits _ _ hfit
  · rw [h.outside id name hid] at he
    exact ha id name ty s he

end Enters

/-- What the scope of a class holds: properties under their names, and methods. -/
def MemberOf (info : Types.TypeInfo) (name : String) (e : Entry) : Prop :=
  (∃ p ∈ info.properties.values, p.name = name ∧ e = ⟨.variable p.type, none⟩) ∨
    ∃ returns, e = ⟨.method returns, none⟩

theorem MemberOf.slot {info : Types.TypeInfo} {name : String} {e : Entry}
    (h : MemberOf info name e) : e.slot = none := by
  rcases h with ⟨p, -, -, rfl⟩ | ⟨returns, rfl⟩
  · rfl
  · rfl

theorem enters_members (info : Types.TypeInfo) (scope : ScopeId) (a : Arena) :
    Enters (MemberOf info) scope a (Resolved.members info scope a) := by
  unfold Resolved.members
  refine (Enters.foldl Types.PropertyInfo.name (fun p => ⟨.variable p.type, none⟩) ?_).trans
    (Enters.foldl Types.MethodInfo.signature (fun m => ⟨.method m.returns, none⟩) ?_)
  · exact fun p hp => .inl ⟨p, hp, rfl, rfl⟩
  · exact fun m _ => .inr ⟨m.returns, rfl⟩

theorem enters_typeNames (program : Program) :
    Enters (fun _ e => e = ⟨.type, none⟩) Arena.root .initial (typeNames program) :=
  Enters.foldl TypeDecl.name (fun _ => ⟨.type, none⟩) fun _ _ => rfl

/-! ## Types -/

namespace Resolved

variable {r : Resolved}

/-- The state behind the members of a class, before its initial values are walked. -/
def atClass (table : Types.Table) (r : Resolved) (decl : ClassDecl) : Resolved :=
  let opened := (r.enter Arena.root decl.name .class_ decl.id).1
  match table.find? decl.name with
  | some info => { opened with arena := members info r.arena.size opened.arena }
  | none => opened

/-- The place from which the members of a class look names up. -/
def classContext (table : Types.Table) (r : Resolved) (decl : ClassDecl) : Context :=
  ⟨table, decl.name, false, r.arena.size⟩

theorem class_eq (table : Types.Table) (r : Resolved) (decl : ClassDecl) :
    class_ table r decl = (decl.constructors ++ decl.methods ++ decl.main.toList).foldl
      (method (classContext table r decl))
      ((decl.properties.filterMap fun p => p.variable_.value).foldl
        (expr (classContext table r decl)) (atClass table r decl)) := by
  unfold class_ atClass
  cases table.find? decl.name <;> rfl

/-- The scope of a class is opened and holds its members. -/
theorem enters_atClass (table : Types.Table) (r : Resolved) (decl : ClassDecl) :
    Enters (fun name e => ∃ info, table.find? decl.name = some info ∧ MemberOf info name e)
      r.arena.size (r.enter Arena.root decl.name .class_ decl.id).1.arena
      (atClass table r decl).arena := by
  unfold atClass
  split
  · rename_i info hinfo
    obtain ⟨hs, hp, ha, ho, he⟩ := enters_members info r.arena.size
      (r.enter Arena.root decl.name .class_ decl.id).1.arena
    exact ⟨hs, hp, ha, ho, fun name e h => (he name e h).imp_right fun hm => ⟨info, hinfo, hm⟩⟩
  · exact .refl _

theorem faults_atClass (table : Types.Table) (r : Resolved) (decl : ClassDecl) :
    (atClass table r decl).faults = r.faults := by
  unfold atClass
  split <;> rfl

theorem grown_atClass (table : Types.Table) (r : Resolved) (decl : ClassDecl) :
    Grown [decl.id] r (atClass table r decl) := by
  have hopen : Walked r.arena.size [decl.id] r (r.enter Arena.root decl.name .class_ decl.id).1 :=
    walked_enter (.refl _)
  have hm := enters_atClass table r decl
  refine ⟨?_, ?_, ?_, ?_, ?_, ?_⟩
  · rw [hm.size]
    exact hopen.size
  · intro id hid
    rw [hm.parent, hopen.parent id hid]
  · intro id hid name
    rw [hm.outside id name (Nat.ne_of_lt hid), hopen.outside id hid (Nat.ne_of_lt hid)]
  · intro hv
    refine hm.holdsValues ?_ (hopen.values hv)
    rintro name e ⟨info, -, he⟩
    exact he.slot
  · intro node hnode
    exact (hopen.attached node hnode).trans (hm.attached node)
  · rw [faults_atClass]
    exact id

theorem walked_initialValues {scope : ScopeId} (ctx : Context) (r : Resolved) (es : List Expr) :
    Walked scope [] r (es.foldl (expr ctx) r) := by
  refine List.foldlRecOn (motive := fun r' => Walked scope [] r r') _ _ (.refl r) ?_
  intro r' hr e _
  exact hr.followedBy (walked_expr ctx r' e)

theorem grown_class {table : Types.Table} {decl : ClassDecl} (h : decl.WellNamed)
    (hn : decl.nodes.Nodup) (hc : Closed r decl.nodes) :
    Grown decl.nodes r (class_ table r decl) := by
  rw [ClassDecl.nodes] at hn hc ⊢
  have hbefore : Grown [decl.id] r
      ((decl.properties.filterMap fun p => p.variable_.value).foldl
        (expr (classContext table r decl)) (atClass table r decl)) :=
    (grown_atClass table r decl).trans (walked_initialValues _ _ _).grown
  rw [class_eq]
  refine hbefore.trans (Grown.foldl (List.nodup_cons.1 hn).2 ?_ ?_)
  · intro node hnode
    have hne : node ∉ [decl.id] := by
      rw [List.mem_singleton]
      rintro rfl
      exact (List.nodup_cons.1 hn).1 hnode
    rw [(hbefore.attached node hne).scopeOf]
    exact hc node (List.mem_cons_of_mem _ hnode)
  · intro m hm r hn hc
    exact grown_method (h.methods m hm) hn hc

theorem grown_interface {decl : InterfaceDecl} (h : decl.WellNamed) (hn : decl.nodes.Nodup)
    (hc : Closed r decl.nodes) : Grown decl.nodes r (interface r decl) := by
  rw [InterfaceDecl.nodes, List.map_eq_flatMap] at hn hc ⊢
  have hopen : Grown [decl.id] r (r.enter Arena.root decl.name .interface decl.id).1 :=
    Walked.grown (walked_enter (.refl _))
  refine hopen.trans (Grown.foldl (List.nodup_cons.1 hn).2 ?_ ?_)
  · exact closed_enter _ _ _ (fun node hnode => hc node (List.mem_cons_of_mem _ hnode))
      (List.nodup_cons.1 hn).1
  · intro header hmem r _ _
    exact grown_abstractMethod (h.methods header hmem)

theorem grown_declaration {table : Types.Table} {decl : TypeDecl} (h : decl.WellNamed)
    (hn : decl.nodes.Nodup) (hc : Closed r decl.nodes) :
    Grown decl.nodes r (declaration table r decl) := by
  cases decl with
  | class_ decl => exact grown_class h hn hc
  | interface decl => exact grown_interface h hn hc

end Resolved

theorem scopeOf_typeNames (program : Program) (node : NodeId) :
    (typeNames program).scopeOf node = none := by
  rw [((enters_typeNames program).attached node).scopeOf]
  rfl

theorem lookupLocal_initial (id : ScopeId) (name : String) :
    Arena.initial.lookupLocal id name = none := by
  cases id with
  | zero => rfl
  | succ id =>
    rw [Arena.lookupLocal, Arena.get?_eq_none (Nat.succ_le_succ (Nat.zero_le id))]
    rfl

/-- The root holds the names of the types, in whatever order they are declared. -/
theorem lookupLocal_typeNames (p : Program) (name : String) :
    (typeNames p).lookupLocal Arena.root name =
      if name ∈ p.declarations.map TypeDecl.name then some ⟨.type, none⟩ else none := by
  have hroot : Arena.root < Arena.initial.size := Nat.succ_pos 0
  rw [typeNames, Arena.lookupLocal_foldl_insertNew TypeDecl.name (fun _ => ⟨.type, none⟩) hroot,
    lookupLocal_initial, Option.none_or]
  cases hfind : p.declarations.find? fun d => d.name = name with
  | some d =>
    have hname : d.name = name := by simpa using List.find?_some hfind
    rw [if_pos (hname ▸ List.mem_map_of_mem (List.mem_of_find?_eq_some hfind))]
    rfl
  | none =>
    rw [if_neg]
    · rfl
    · intro hmem
      obtain ⟨d, hd, hname⟩ := List.mem_map.1 hmem
      exact List.find?_eq_none.1 hfind d hd (decide_eq_true hname)

/-- The scopes of a well-named program hold values in slots. -/
theorem holdsValues_resolve {program : Program} (h : program.WellNamed)
    (hn : program.nodes.Nodup) (table : Types.Table) :
    (resolve program table).arena.HoldsValues := by
  have hgrown : Grown program.nodes ⟨typeNames program, #[], 0⟩ (resolve program table) := by
    refine Grown.foldl hn ?_ ?_
    · exact fun node _ => scopeOf_typeNames program node
    · exact fun decl hd r hn hc => Resolved.grown_declaration (h decl hd) hn hc
  apply hgrown.values
  refine (enters_typeNames program).holdsValues ?_ ?_
  · rintro name e rfl
    rfl
  · intro id name ty s he
    rw [lookupLocal_initial] at he
    cases he

end Javelet.Scope
