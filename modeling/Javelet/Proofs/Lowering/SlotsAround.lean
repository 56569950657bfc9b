import Javelet.Proofs.Lowering.Entities
import Mathlib.Data.Set.Basic

/-!
# The variables in the scopes around a place

When the walk comes to a place, the scopes around it hold the variables that have been declared
there. A statement in the scope of the place adds to them what it declares: a declaration its
variable, and a conditional or a loop the variable of a declaration that is one of its branches,
without braces around it. Everything else is declared in scopes that are opened inside.
-/
namespace Javelet

/-- The branches of a statement, which declare in the scope around it unless they are in braces. The
body of a for loop that declares a variable is in the scope of the loop. -/
def Statement.branches : Statement → List Statement
  | conditional _ _ body otherwise => body :: otherwise.toList
  | whileLoop _ _ body => [body]
  | forLoop _ _ (some (.declaration _)) _ _ _ => []
  | forLoop _ _ _ _ _ body => [body]
  | _ => []

namespace Lowering

open Scope

/-- The slots of the variables that have been declared in the scopes around a scope. -/
def slotsAround (a : Arena) (r : Resolved) (scope : ScopeId) : Set Nat :=
  {slot | ∃ id name ty, a.Around scope id ∧
    r.arena.lookupLocal id name = some ⟨.variable ty, some slot⟩}

/-- The slot of the variable that a statement declares, if it is a declaration. -/
def ownSlots (a : Arena) (scope : ScopeId) (s : Statement) : Set Nat :=
  {slot | ∃ x, s = .declaration x ∧
    a.lookupLocal scope x.name = some ⟨.variable x.type, some slot⟩}

/-- A set of slots that holds the one of the receiver, those of variables that are taken for
something before they are declared, and those of declarations that are branches. -/
structure Excused (a : Arena) (visits : List Scope.Visit) (E : Set Nat) : Prop where
  receiver : 0 ∈ E
  later : ∀ v ∈ visits, ∀ name ty slot, v.place.name? = some name →
    a.lookup v.ctx.scope name = some ⟨.variable ty, some slot⟩ → v.state.nextSlot ≤ slot → slot ∈ E
  branches : ∀ v ∈ visits, ∀ s, v.place = .statement s → ∀ b ∈ s.branches,
    ownSlots a v.ctx.scope b ⊆ E

variable {a : Arena} {last r r' : Resolved} {ctx : Context} {env : Env}
  {visits more : List Scope.Visit} {E F : Set Nat} {scope inner : ScopeId}

theorem Excused.sub (h : Excused a visits E) (hs : ∀ v ∈ more, v ∈ visits) : Excused a more E :=
  ⟨h.receiver, fun v hv => h.later v (hs v hv), fun v hv => h.branches v (hs v hv)⟩

theorem Excused.left (h : Excused a (visits ++ more) E) : Excused a visits E :=
  h.sub fun _ => List.mem_append_left _

theorem Excused.right (h : Excused a (visits ++ more) E) : Excused a more E :=
  h.sub fun _ => List.mem_append_right _

theorem Excused.mono (h : Excused a visits E) (hsub : E ⊆ F) : Excused a visits F :=
  ⟨hsub h.receiver, fun v hv name ty slot hname hfound hle =>
      hsub (h.later v hv name ty slot hname hfound hle),
    fun v hv s hs b hb => (h.branches v hv s hs b hb).trans hsub⟩

/-! ## Scopes without new entries -/

theorem slotsAround_subset
    (h : ∀ id ≤ scope, ∀ name, r'.arena.lookupLocal id name = r.arena.lookupLocal id name) :
    slotsAround a r' scope ⊆ slotsAround a r scope := by
  rintro slot ⟨id, name, ty, haround, hfound⟩
  exact ⟨id, name, ty, haround, (h id haround.le name).symm.trans hfound⟩

/-- What is declared in a scope that is opened later is not around a scope. -/
theorem slotsAround_walked {nodes : List NodeId} (h : Walked inner nodes r r')
    (hlt : scope < r.arena.size) (hne : scope < inner) :
    slotsAround a r' scope ⊆ slotsAround a r scope := by
  refine slotsAround_subset fun id hid name => h.outside id (Nat.lt_of_le_of_lt hid hlt) ?_ name
  exact Nat.ne_of_lt (Nat.lt_of_le_of_lt hid hne)

/-- A scope that has just been opened has no entries of its own. -/
theorem slotsAround_nested (hl : Final last a) (hf : Filled r' last)
    (hentries : ∀ id name, r'.arena.lookupLocal id name = r.arena.lookupLocal id name)
    (hnew : r.arena.size ≤ inner) (hlt : inner < r'.arena.size)
    (hparent : r'.arena.parentOf inner = some scope) :
    slotsAround a r' inner ⊆ slotsAround a r scope := by
  rintro slot ⟨id, name, ty, haround, hfound⟩
  rw [hentries] at hfound
  have hold : id < r.arena.size := by
    by_contra hge
    rw [Arena.lookupLocal, Arena.get?_eq_none (Nat.le_of_not_lt hge)] at hfound
    cases hfound
  cases haround with
  | self => exact (Nat.not_lt.2 hnew hold).elim
  | step hp _ hrest =>
    rw [hl.parent inner (Nat.lt_of_lt_of_le hlt hf.size), hf.parent inner hlt, hparent] at hp
    cases hp
    exact ⟨id, name, ty, hrest, hfound⟩

theorem lookupLocal_enter (parent : ScopeId) (n : String) (kind : Scope.Kind) (node : NodeId)
    (id : ScopeId) (name : String) :
    (r.enter parent n kind node).1.arena.lookupLocal id name = r.arena.lookupLocal id name := by
  simp [Resolved.enter]

/-! ## Inside of statements -/

theorem JointList.walked {ss : List Statement} (h : JointList a last ctx r env ss) :
    Walked ctx.scope (statementNodes ss) r (Resolved.statements ctx r ss) :=
  Resolved.walked_statements (fun s _ => Resolved.walks s) h.wellNamed h.nodup h.closed

/-- Inside of a block there is nothing around a place at first but what is around the block. -/
theorem JointBlock.slotsAround_opened {b : Block} {kind : Scope.Kind} (hl : Final last a)
    (h : JointBlock a last ctx kind r env b) :
    slotsAround a (r.opened ctx kind b).1 (r.opened ctx kind b).2.scope ⊆
      slotsAround a r ctx.scope := by
  have hss := h.statements
  unfold Resolved.opened at hss ⊢
  split at hss
  · rename_i scope hscope
    obtain ⟨rfl, -⟩ := h.attached b.id (Block.id_mem_nodes b) scope hscope
    exact Set.Subset.refl _
  · have hvisible := hss.aligned.visible
    exact slotsAround_nested hl (hss.walked.toFilled.trans hss.persists.filled)
      (fun id name => lookupLocal_enter ..) (Nat.le_refl _) hvisible.lt
      (Arena.parentOf_push_size ..)

theorem opened_of_closed {b : Block} {kind : Scope.Kind} (hc : Closed r b.nodes) :
    r.opened ctx kind b =
      ((r.enter ctx.scope "block" kind b.id).1, { ctx with scope := r.arena.size }) := by
  have hnone : r.arena.scopeOf b.id = none := hc b.id (Block.id_mem_nodes b)
  rw [Resolved.opened, hnone]

/-- A block that opens a scope adds nothing to the scopes around it. -/
theorem JointBlock.gains {b : Block} {kind : Scope.Kind} (h : JointBlock a last ctx kind r env b)
    (hc : Closed r b.nodes) :
    slotsAround a (Resolved.block ctx kind r b) ctx.scope ⊆ slotsAround a r ctx.scope := by
  have hss := h.statements
  have hlt := h.aligned.visible.lt
  rw [Resolved.block_eq]
  rw [opened_of_closed hc] at hss ⊢
  refine (slotsAround_walked hss.walked (Nat.lt_trans hlt hss.aligned.visible.lt) hlt).trans ?_
  exact slotsAround_subset fun id _ name => lookupLocal_enter ..

theorem JointCases.gains {cases : List Case} (h : JointCases a last ctx r env cases) :
    slotsAround a (Resolved.caseBodies ctx r cases) ctx.scope ⊆ slotsAround a r ctx.scope := by
  induction cases generalizing r with
  | nil => rw [Resolved.caseBodies]
  | cons c cases ih =>
    obtain ⟨hhead, hclosed⟩ := h.head
    have hrest := (ih h.tail).trans (hhead.gains hclosed)
    obtain ⟨p, q, l, b⟩ := c
    rw [Resolved.caseBodies]
    exact hrest

/-- A declaration adds its own variable. -/
theorem Joint.gains_declaration (hl : Final last a) {x : Variable}
    (h : Joint a last ctx r env (.declaration x)) :
    slotsAround a (Resolved.statement ctx r (.declaration x)) ctx.scope ⊆
      slotsAround a r ctx.scope ∪ ownSlots a ctx.scope (.declaration x) := by
  have hp := h.persists
  have hscope := h.aligned.visible.lt
  rw [Resolved.statement] at hp ⊢
  obtain ⟨-, -, -, harena, -⟩ := Resolved.faultless_variable (hp.faults hl)
  have hsettled : a.lookupLocal ctx.scope x.name = some ⟨.variable x.type, some r.nextSlot⟩ :=
    settled_declaration hscope hp.filled hl _ (List.mem_cons_self ..)
  rintro slot ⟨id, name, ty, haround, hfound⟩
  rw [harena] at hfound
  by_cases heq : id = ctx.scope ∧ name = x.name
  · obtain ⟨rfl, rfl⟩ := heq
    cases Arena.lookupLocal_put_self hfound
    exact .inr ⟨x, rfl, hsettled⟩
  · rw [Arena.lookupLocal_put_of_ne (not_and_or.1 heq)] at hfound
    exact .inl ⟨id, name, ty, haround, hfound⟩

/-! ## For loops -/

section ForLoop

variable {p : Position} {id : NodeId} {init : Option ForInit} {e : Option Expr}
  {update : Option Action} {body : Statement}

theorem lookupLocal_enterLoop (outer : ScopeId) (name : String) :
    (r.enterLoop ctx id init body).1.arena.lookupLocal outer name =
      r.arena.lookupLocal outer name := by
  match init with
  | none => rfl
  | some (.assignment a) => rfl
  | some (.declaration x) => cases body <;> exact lookupLocal_enter _ _ _ id outer name

theorem arena_loopControl (e : Option Expr) (update : Option Action) :
    (r.loopControl ctx e update).arena = r.arena := by
  cases e <;> cases update <;> rfl

/-- A for loop opens a scope in the scope around it if it declares a variable. Else its body is a
branch, and nothing is declared in front of it. -/
theorem enterLoop_cases (ctx : Context) (r : Resolved) (id : NodeId) (init : Option ForInit)
    (body : Statement) :
    (r.enterLoop ctx id init body = (r, ctx) ∧ (r.loopInit ctx init).arena = r.arena ∧
      ∀ p e update, body ∈ (Statement.forLoop p id init e update body).branches) ∨
    ((r.enterLoop ctx id init body).2.scope = r.arena.size ∧
      (r.enterLoop ctx id init body).1.arena.parentOf r.arena.size = some ctx.scope) := by
  match init with
  | none => exact .inl ⟨rfl, rfl, fun _ _ _ => List.mem_singleton.2 rfl⟩
  | some (.assignment a) => exact .inl ⟨rfl, rfl, fun _ _ _ => List.mem_singleton.2 rfl⟩
  | some (.declaration x) =>
    refine .inr ⟨rfl, ?_⟩
    cases body <;> exact Arena.parentOf_push_size ..

theorem JointLoop.walked {atInit : Resolved}
    (h : JointLoop a last ctx atInit env init e update body) : Walked ctx.scope body.nodes atInit
      (Resolved.statement ctx ((atInit.loopInit ctx init).loopControl ctx e update) body) :=
  ((h.walkedInit.followedBy h.walkedCondition).followedBy h.walkedUpdate).trans h.body.walked

theorem Joint.slotsAround_enterLoop (hl : Final last a)
    (h : Joint a last ctx r env (.forLoop p id init e update body)) :
    slotsAround a (r.enterLoop ctx id init body).1 (r.enterLoop ctx id init body).2.scope ⊆
      slotsAround a r ctx.scope := by
  have hloop := h.forLoop
  rcases enterLoop_cases ctx r id init body with ⟨heq, -⟩ | ⟨hscope, hparent⟩
  · rw [heq]
  · have hlt := hloop.aligned.visible.lt
    rw [hscope] at hlt ⊢
    exact slotsAround_nested hl (hloop.walked.toFilled.trans hloop.body.persists.filled)
      (fun outer name => lookupLocal_enterLoop ..) (Nat.le_refl _) hlt hparent

end ForLoop

/-! ## All statements -/

theorem mem_visits_self (s : Statement) : ⟨.statement s, ctx, r⟩ ∈ r.visits ctx s := by
  have hself : .statement s ∈ s.own := by
    cases s <;> exact List.mem_cons_self
  have hseen : (⟨.statement s, ctx, r⟩ : Scope.Visit) ∈ r.seen ctx s.own := List.mem_map_of_mem hself
  cases s <;> rw [Resolved.visits] <;> first
    | exact hseen
    | exact List.mem_append_left _ hseen

/-- What is shown of every statement. -/
def Gains (a : Arena) (last : Resolved) (s : Statement) : Prop :=
  ∀ {ctx r env E}, Joint a last ctx r env s → Closed r s.nodes → Excused a (r.visits ctx s) E →
    slotsAround a (Resolved.statement ctx r s) ctx.scope ⊆
      E ∪ slotsAround a r ctx.scope ∪ ownSlots a ctx.scope s

/-- What a branch declares is excused by the statement it is a branch of. -/
theorem Gains.branch {s w : Statement} (h : Gains a last s) (hs : Joint a last ctx r' env s)
    (hc : Closed r' s.nodes) (hE : Excused a (r'.visits ctx s) E)
    (hw : Excused a (r.visits ctx w) E) (hb : s ∈ w.branches) :
    slotsAround a (Resolved.statement ctx r' s) ctx.scope ⊆ E ∪ slotsAround a r' ctx.scope :=
  (h hs hc hE).trans (Set.union_subset (Set.Subset.refl _)
    ((hw.branches _ (mem_visits_self w) w rfl s hb).trans Set.subset_union_left))

theorem conditional_gains {p : Position} {e : Expr} {body : Statement}
    {otherwise : Option Statement} (ihbody : Gains a last body)
    (ihother : ∀ s ∈ otherwise, Gains a last s) :
    Gains a last (.conditional p e body otherwise) := by
  intro ctx r env E h hc hE
  obtain ⟨⟨hbody, hcbody⟩, hother⟩ := h.conditional
  have hparts := hE
  rw [Resolved.visits] at hparts
  have hfirst := ihbody.branch hbody hcbody hparts.right.left hE List.mem_cons_self
  refine Set.Subset.trans ?_ Set.subset_union_left
  rw [Resolved.statement]
  cases otherwise with
  | none => exact hfirst
  | some s =>
    obtain ⟨hs, hcs⟩ := hother s rfl
    have hvisits := hparts.right.right
    rw [Resolved.otherwiseVisits] at hvisits
    have hsecond := Gains.branch (ihother s rfl) hs hcs hvisits hE
      (List.mem_cons_of_mem _ (List.mem_singleton.2 rfl))
    exact hsecond.trans (Set.union_subset Set.subset_union_left hfirst)

theorem forLoop_gains {p : Position} {id : NodeId} {init : Option ForInit} {e : Option Expr}
    {update : Option Action} {body : Statement} (ih : Gains a last body) :
    Gains a last (.forLoop p id init e update body) := by
  intro ctx r env E h hc hE
  have hloop := h.forLoop
  have hlt := h.aligned.visible.lt
  have hparts := hE
  rw [Resolved.visits] at hparts
  have hvisits := hparts.right.right.right.right
  rw [Statement.nodes] at hc
  refine Set.Subset.trans ?_ Set.subset_union_left
  rw [Resolved.statement]
  rcases enterLoop_cases ctx r id init body with ⟨heq, harena, hbranch⟩ | ⟨hscope, -⟩
  · rw [heq] at hloop hvisits ⊢
    have hsame : ((r.loopInit ctx init).loopControl ctx e update).arena = r.arena := by
      rw [arena_loopControl, harena]
    have hcbody : Closed ((r.loopInit ctx init).loopControl ctx e update) body.nodes := by
      intro node hnode
      rw [hsame]
      exact hc node (List.mem_cons_of_mem _ hnode)
    refine (ih.branch hloop.body hcbody hvisits hE (hbranch p e update)).trans ?_
    rw [slotsAround, hsame]
    exact Set.Subset.refl _
  · have hsize := hloop.aligned.visible.lt
    have hwalked := hloop.walked
    rw [hscope] at hsize hwalked
    refine Set.Subset.trans ((slotsAround_walked hwalked (Nat.lt_trans hlt hsize) hlt).trans ?_)
      Set.subset_union_right
    exact slotsAround_subset fun outer _ name => lookupLocal_enterLoop outer name

theorem switch_gains (hl : Final last a) {p : Position} {id : NodeId} {e : Expr}
    {cases : List Case} {default_ : Option Block} :
    Gains a last (.switch p id e cases default_) := by
  intro ctx r env E h hc hE
  obtain ⟨hselector, hcases, hdefault⟩ := h.switch
  have hsame : slotsAround a (r.selector ctx id e) ctx.scope ⊆ slotsAround a r ctx.scope := by
    rw [(Resolved.faultless_selector (hselector.faults hl)).2]
    exact Set.Subset.refl _
  have hbodies := hcases.gains.trans hsame
  refine Set.Subset.trans ?_ (Set.subset_union_right.trans Set.subset_union_left)
  rw [Resolved.statement]
  cases default_ with
  | none => exact hbodies
  | some b =>
    obtain ⟨hb, hclosed⟩ := hdefault b rfl
    exact (hb.gains hclosed).trans hbodies

/-- What a statement adds to the scopes around it is excused, apart from its own variable. -/
theorem gains (hl : Final last a) (s : Statement) : Gains a last s := by
  induction s using Statement.induction with
  | block b ih =>
    intro ctx r env E h hc hE
    rw [Statement.nodes] at hc
    rw [Resolved.statement]
    exact (h.block.gains hc).trans (Set.subset_union_right.trans Set.subset_union_left)
  | conditional p e body otherwise ihbody ihother => exact conditional_gains ihbody ihother
  | whileLoop p e body ih =>
    intro ctx r env E h hc hE
    obtain ⟨hbody, hcbody⟩ := h.whileLoop
    have hparts := hE
    rw [Resolved.visits] at hparts
    refine Set.Subset.trans ?_ Set.subset_union_left
    rw [Resolved.statement]
    exact ih.branch hbody hcbody hparts.right hE List.mem_cons_self
  | forLoop p id init e update body ih => exact forLoop_gains ih
  | switch p id e cases default_ ihc ihd => exact switch_gains hl
  | jump p j =>
    intro ctx r env E h hc hE
    rw [Resolved.statement]
    exact Set.subset_union_right.trans Set.subset_union_left
  | action act =>
    intro ctx r env E h hc hE
    rw [Resolved.statement]
    exact Set.subset_union_right.trans Set.subset_union_left
  | declaration x =>
    intro ctx r env E h hc hE
    exact (h.gains_declaration hl).trans (Set.union_subset_union_left _ Set.subset_union_right)

end Lowering

end Javelet
