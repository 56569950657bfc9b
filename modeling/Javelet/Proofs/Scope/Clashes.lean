import Javelet.Proofs.Scope.Bindings
import Javelet.Proofs.Scope.Faultless
import Javelet.Proofs.Scope.Finished
import Mathlib.Data.List.Perm.Basic

/-!
# Clashes of names

What a step of the walk declares in its scope and where it reports that a name is taken. As long as
every variable gets a slot, the names of a scope are those that were declared in it, so a
declaration clashes exactly if its name is among them. Uses of names report other faults.
-/
namespace Javelet.Scope

open Binding (repeated)

/-- The faults of declaring a local name twice. -/
def Fault.isClash : Fault → Bool
  | .parameterDeclared _ => true
  | .variableDeclared _ => true
  | _ => false

@[simp] theorem isClash_clash (kind : LocalKind) (name : String) :
    (kind.clash name).isClash = true := by
  cases kind <;> rfl

/-! ## Uses of names are no clashes -/

/-- None of the faults comes from a declaration. -/
def Using (fs : List (Located Fault)) : Prop := ∀ f ∈ fs, f.fault.isClash = false

namespace Using

variable {ctx : Context} {arena : Arena} {fs fs' : List (Located Fault)}

theorem append (h : Using fs) (h' : Using fs') : Using (fs ++ fs') :=
  List.forall_mem_append.2 ⟨h, h'⟩

theorem faultAt {fault : Option Fault} (h : ∀ f ∈ fault, f.isClash = false) (p : Position) :
    Using (faultAt fault p) := by
  intro f hf
  rw [Scope.faultAt, List.mem_map] at hf
  obtain ⟨cause, hcause, rfl⟩ := hf
  exact h cause (Option.mem_toList.1 hcause)

theorem instanceFault {use : InstanceUse} : ∀ f ∈ ctx.instanceFault use, f.isClash = false := by
  intro f hf
  unfold Context.instanceFault at hf
  split at hf <;> cases hf
  rfl

theorem typeFault (ty : Ty) : ∀ f ∈ ctx.typeFault ty, f.isClash = false := by
  intro f hf
  unfold Context.typeFault at hf
  split at hf <;> cases hf
  rfl

theorem nameFault (name : String) : ∀ f ∈ ctx.nameFault arena name, f.isClash = false := by
  intro f hf
  unfold Context.nameFault at hf
  extract_lets outside at hf
  have houtside : f ∈ outside → f.isClash = false := by
    intro hf
    unfold outside at hf
    split at hf
    · exact instanceFault f hf
    · split at hf <;> cases hf
      rfl
  clear_value outside
  split at hf
  · exact houtside hf
  · split at hf
    · cases hf
    · split at hf
      · exact instanceFault f hf
      · cases hf
        rfl
      · exact houtside hf

theorem headFault (head : Head) : ∀ f ∈ ctx.headFault arena head, f.isClash = false := by
  cases head with
  | this p => exact instanceFault
  | name p name => exact nameFault name
  | call p name args =>
    intro f hf
    rw [Context.headFault] at hf
    split at hf
    · cases hf
      rfl
    · exact instanceFault f hf

theorem flatMap {es : List Expr} (ih : ∀ e ∈ es, Using (exprFaults ctx arena e)) :
    Using (es.flatMap (exprFaults ctx arena)) := by
  intro f hf
  obtain ⟨e, he, hf⟩ := List.mem_flatMap.1 hf
  exact ih e he f hf

theorem expr (e : Expr) : Using (exprFaults ctx arena e) := by
  induction e using Expr.induction with
  | literal p value =>
    rw [exprFaults]
    exact List.forall_mem_nil _
  | binary op left right ihl ihr =>
    rw [exprFaults]
    exact ihl.append ihr
  | access head links ihh ihl =>
    rw [exprFaults, chainFaults, headFaults_eq, linksFaults_eq]
    refine ((faultAt (headFault head) _).append (flatMap ihh)).append (flatMap ?_)
    intro e he
    obtain ⟨l, hl, he⟩ := List.mem_flatMap.1 he
    exact ihl l hl e he
  | newObject p className args ih =>
    rw [exprFaults, exprsFaults_eq]
    refine (faultAt ?_ p).append (flatMap ih)
    intro f hf
    unfold Context.classFault at hf
    split at hf <;> cases hf
    rfl
  | newArray p element length ih =>
    rw [exprFaults]
    exact (faultAt (typeFault _) p).append ih

theorem assignment (a : Assignment) : Using (assignmentFaults ctx arena a) := by
  have htarget : Using (exprFaults ctx arena (.access a.target)) := expr _
  rw [exprFaults] at htarget
  exact htarget.append (expr a.value)

theorem action (a : Action) : Using (actionFaults ctx arena a) := by
  cases a with
  | assignment a => exact assignment a
  | call c =>
    have hcall : Using (exprFaults ctx arena (.access c)) := expr _
    rwa [exprFaults] at hcall

theorem jump (j : Jump) : Using (jumpFaults ctx arena j) := by
  unfold jumpFaults
  split
  · exact expr _
  · exact List.forall_mem_nil _

end Using

/-! ## What a walk reports and declares -/

namespace Resolved

/-- A variable has got no slot. -/
def Crowded (r : Resolved) : Prop := ∃ f ∈ r.faults.toList, f.fault = .tooManyLocals

/-- The faults of declaring local names twice. -/
def clashes (r : Resolved) : List (Located Fault) :=
  r.faults.toList.filter fun f => f.fault.isClash

/-- The names of a scope, as long as every variable has got a slot. -/
structure Holds (r : Resolved) (scope : ScopeId) (seen : List String) : Prop where
  lt_size : scope < r.arena.size
  names : ¬ r.Crowded → ∀ n, (r.arena.lookupLocal scope n).isSome ↔ n ∈ seen

/-- The declarations at which a walk reports clashes. -/
structure Reports (ds : List Binding) (r r' : Resolved) : Prop where
  crowded : r.Crowded → r'.Crowded
  clashes : ¬ r'.Crowded → r'.clashes.Perm (r.clashes ++ ds.map Binding.clash)

/-- What a walk declares in one scope, and in the scopes that it opens. -/
structure Declares (scope : ScopeId) (seen : List String) (ds : List Binding)
    (inner : List (List Binding)) (r r' : Resolved) : Prop extends
    Reports (repeated seen ds ++ inner.flatMap (repeated [])) r r' where
  holds : r'.Holds scope (seen ++ ds.map Binding.name)

variable {r r' r'' : Resolved} {scope : ScopeId} {seen : List String} {ds ds' : List Binding}
  {inner inner' : List (List Binding)}

theorem Crowded.report {fs : List (Located Fault)} (h : r.Crowded) : (r.report fs).Crowded := by
  obtain ⟨f, hf, hfault⟩ := h
  refine ⟨f, ?_, hfault⟩
  rw [Resolved.report, Array.toList_appendList]
  exact List.mem_append_left _ hf

namespace Reports

theorem refl (r : Resolved) : Reports [] r r :=
  ⟨id, fun _ => by rw [List.map_nil, List.append_nil]⟩

theorem trans (h : Reports ds r r') (h' : Reports ds' r' r'') : Reports (ds ++ ds') r r'' := by
  refine ⟨fun hc => h'.crowded (h.crowded hc), ?_⟩
  intro hfit
  have hfit' : ¬ r'.Crowded := fun hc => hfit (h'.crowded hc)
  rw [List.map_append, ← List.append_assoc]
  exact (h'.clashes hfit).trans ((h.clashes hfit').append_right _)

theorem perm (h : Reports ds r r') (hp : ds.Perm ds') : Reports ds' r r' :=
  ⟨h.crowded, fun hfit => (h.clashes hfit).trans ((hp.map _).append_left _)⟩

/-- Faults that come from no declaration. -/
theorem report {fs : List (Located Fault)} (h : Using fs) : Reports [] r (r.report fs) := by
  refine ⟨Crowded.report, ?_⟩
  intro _
  have hnone : (fs.filter fun f => f.fault.isClash) = [] := by
    rw [List.filter_eq_nil_iff]
    intro f hf
    rw [h f hf]
    exact Bool.false_ne_true
  rw [Resolved.clashes, Resolved.report, Array.toList_appendList, List.filter_append, hnone]
  exact .refl _

/-- The faults are told here by those of two other states. -/
theorem of_faults {s s' : Resolved} (h : Reports ds s s') (hr : r.faults = s.faults)
    (hr' : r'.faults = s'.faults) : Reports ds r r' := by
  obtain ⟨hc, hp⟩ := h
  simp only [Crowded, Resolved.clashes] at hc hp
  rw [← hr, ← hr'] at hc hp
  exact ⟨hc, hp⟩

/-- Walks of list members make a walk of the list. -/
theorem foldl {α : Type} {f : Resolved → α → Resolved} {nodes : α → List NodeId}
    {told : α → List Binding} {xs : List α} (hn : (xs.flatMap nodes).Nodup)
    (hc : Closed r (xs.flatMap nodes))
    (hf : ∀ x ∈ xs, ∀ r, (nodes x).Nodup → Closed r (nodes x) →
      Grown (nodes x) r (f r x) ∧ Reports (told x) r (f r x)) :
    Reports (xs.flatMap told) r (xs.foldl f r) := by
  induction xs generalizing r with
  | nil => exact .refl r
  | cons x xs ih =>
    rw [List.flatMap_cons] at hn hc ⊢
    obtain ⟨hgrown, hx⟩ := hf x (List.mem_cons_self ..) r (List.nodup_append.1 hn).1 hc.left
    refine hx.trans (ih (List.nodup_append.1 hn).2.1 ?_
      fun y hy => hf y (List.mem_cons_of_mem _ hy))
    intro node hnode
    have hother : node ∉ nodes x :=
      fun hmem => (List.nodup_append.1 hn).2.2 node hmem node hnode rfl
    rw [(hgrown.attached node hother).scopeOf]
    exact hc.right node hnode

end Reports

theorem Holds.of_eq (h : r.Holds scope seen) (hs : r.arena.size ≤ r'.arena.size)
    (hl : ∀ n, r'.arena.lookupLocal scope n = r.arena.lookupLocal scope n)
    (hc : r.Crowded → r'.Crowded) : r'.Holds scope seen := by
  refine ⟨Nat.lt_of_lt_of_le h.lt_size hs, ?_⟩
  intro hfit n
  rw [hl]
  exact h.names (fun hcrowded => hfit (hc hcrowded)) n

namespace Declares

theorem refl (h : r.Holds scope seen) : Declares scope seen [] [] r r := by
  refine ⟨.refl r, ?_⟩
  rwa [List.map_nil, List.append_nil]

theorem trans (h : Declares scope seen ds inner r r')
    (h' : Declares scope (seen ++ ds.map Binding.name) ds' inner' r' r'') :
    Declares scope seen (ds ++ ds') (inner ++ inner') r r'' := by
  refine ⟨(h.toReports.trans h'.toReports).perm ?_, ?_⟩
  · rw [Binding.repeated_append, List.flatMap_append, List.perm_iff_count]
    intro d
    simp only [List.count_append]
    omega
  · rw [List.map_append, ← List.append_assoc]
    exact h'.holds

/-- Scopes that are opened in front of a walk. -/
theorem after (h : Declares scope seen [] inner r r')
    (h' : Declares scope seen ds inner' r' r'') :
    Declares scope seen ds (inner ++ inner') r r'' := by
  have hnames : seen ++ ([] : List Binding).map Binding.name = seen := List.append_nil seen
  exact h.trans (hnames.symm ▸ h')

/-- The names are the same behind a step that declares nothing. -/
theorem same (h : Declares scope seen [] inner r r') : r'.Holds scope seen := by
  have hh := h.holds
  rwa [List.map_nil, List.append_nil] at hh

theorem report {fs : List (Located Fault)} (hh : r.Holds scope seen) (h : Using fs) :
    Declares scope seen [] [] r (r.report fs) := by
  have hr : Reports [] r (r.report fs) := .report h
  refine ⟨hr, ?_⟩
  rw [List.map_nil, List.append_nil]
  exact hh.of_eq (Nat.le_refl _) (fun _ => rfl) hr.crowded

/-- What is walked in a scope that is opened for it. -/
theorem enter {parent : ScopeId} {name : String} {kind : Kind} {node : NodeId}
    {nodes : List NodeId} (hh : r.Holds scope seen)
    (h : Declares r.arena.size [] ds inner (r.enter parent name kind node).1 r')
    (hw : Walked r.arena.size nodes (r.enter parent name kind node).1 r') :
    Declares scope seen [] (ds :: inner) r r' := by
  have hr : Reports (repeated [] ds ++ inner.flatMap (repeated [])) r r' :=
    h.toReports.of_faults rfl rfl
  refine ⟨hr, ?_⟩
  have hopen : r.arena.size < (r.enter parent name kind node).1.arena.size :=
    Nat.lt_of_lt_of_eq (Nat.lt_succ_self _) (Arena.size_push ..).symm
  rw [List.map_nil, List.append_nil]
  refine hh.of_eq (Nat.le_trans (Nat.le_of_lt hopen) hw.size) ?_ hr.crowded
  intro n
  rw [hw.outside scope (Nat.lt_trans hh.lt_size hopen) (Nat.ne_of_lt hh.lt_size)]
  exact Arena.lookupLocal_push ..

end Declares

/-- A scope has no names when it is opened. -/
theorem holds_enter (r : Resolved) (parent : ScopeId) (name : String) (kind : Kind)
    (node : NodeId) : (r.enter parent name kind node).1.Holds r.arena.size [] := by
  refine ⟨Nat.lt_of_lt_of_eq (Nat.lt_succ_self _) (Arena.size_push ..).symm, ?_⟩
  intro _ n
  rw [show (r.enter parent name kind node).1.arena.lookupLocal r.arena.size n =
    r.arena.lookupLocal r.arena.size n from Arena.lookupLocal_push ..]
  rw [Arena.lookupLocal, Arena.get?_eq_none (Nat.le_refl _)]
  simp

/-- A declaration takes its name, or clashes with one that has it. -/
theorem declares_declare (d : Binding) (ty : Ty) (hh : r.Holds scope seen) :
    Declares scope seen [d] [] r (r.declare scope d.kind d.name ty d.position) := by
  have hone : repeated seen [d] ++ List.flatMap (repeated []) [] =
      if d.name ∈ seen then [d] else [] := by
    simp [repeated]
  unfold declare
  split
  · rename_i htaken
    refine ⟨⟨Crowded.report, ?_⟩, ?_⟩
    · intro hfit
      rw [hone, if_pos ((hh.names (fun hc => hfit hc.report) _).1 htaken)]
      simp [Resolved.clashes, report, Binding.clash]
    · refine ⟨hh.lt_size, ?_⟩
      intro hfit n
      have hn := hh.names fun hc => hfit hc.report
      rw [report, hn, List.mem_append, List.map_singleton, List.mem_singleton]
      exact (or_iff_left_of_imp fun h => h ▸ (hn _).1 htaken).symm
  · rename_i hfree
    unfold allocate
    split
    · rename_i heq
      split at heq
      · cases heq
      · cases heq
        -- there is no slot for the variable, and nothing is said of its scope
        have hcrowded : (r.report [⟨.tooManyLocals, d.position⟩]).Crowded :=
          ⟨⟨.tooManyLocals, d.position⟩, by simp [report], rfl⟩
        refine ⟨⟨fun _ => hcrowded, fun hfit => (hfit hcrowded).elim⟩, hh.lt_size, ?_⟩
        exact fun hfit => (hfit hcrowded).elim
    · rename_i heq
      split at heq
      · cases heq
        refine ⟨⟨id, ?_⟩, ?_, ?_⟩
        · intro hfit
          rw [hone, if_neg fun hmem => hfree ((hh.names hfit _).2 hmem), List.map_nil,
            List.append_nil]
          exact .refl _
        · exact Nat.lt_of_lt_of_eq hh.lt_size (Arena.size_put ..).symm
        · intro hfit n
          rw [List.mem_append, List.map_singleton, List.mem_singleton]
          by_cases hn : n = d.name
          · subst hn
            rw [show (_ : Option Entry) = _ from Arena.lookupLocal_put hh.lt_size _ _]
            simp
          · rw [show (_ : Option Entry) = _ from Arena.lookupLocal_put_of_ne (.inr hn),
              hh.names hfit]
            exact (or_iff_left hn).symm
      · cases heq

/-! ## Steps of a walk -/

variable {ctx : Context}

theorem declares_expr (e : Expr) (hh : r.Holds scope seen) :
    Declares scope seen [] [] r (r.expr ctx e) :=
  .report hh (.expr e)

theorem declares_variable (v : Variable) (hh : r.Holds ctx.scope seen) :
    Declares ctx.scope seen [v.declared] [] r (r.variable_ ctx v) := by
  have hbehind : ∀ r' : Resolved, r'.Holds ctx.scope seen →
      Declares ctx.scope seen [v.declared] [] r'
        ((r'.report (faultAt (ctx.typeFault v.type) v.position)).declare ctx.scope .variable v.name
          v.type v.position) := by
    intro r' hh'
    have htype : Using (faultAt (ctx.typeFault v.type) v.position) :=
      Using.faultAt (Using.typeFault v.type) v.position
    have hreport := Declares.report hh' htype
    exact hreport.after (declares_declare v.declared v.type hreport.same)
  unfold variable_
  cases v.value with
  | none => exact hbehind r hh
  | some e =>
    have hvalue : Declares ctx.scope seen [] [] r (r.expr ctx e) := declares_expr e hh
    exact hvalue.after (hbehind _ hvalue.same)

theorem declares_loopControl (e : Option Expr) (update : Option Action)
    (hh : r.Holds scope seen) : Declares scope seen [] [] r (r.loopControl ctx e update) := by
  have hupdate : ∀ r' : Resolved, r'.Holds scope seen →
      Declares scope seen [] [] r' (r'.loopControl ctx none update) := by
    intro r' hh'
    cases update with
    | none => exact .refl hh'
    | some action => exact .report hh' (.action action)
  cases e with
  | none => exact hupdate r hh
  | some e =>
    have hcondition : Declares scope seen [] [] r (r.expr ctx e) := declares_expr e hh
    exact hcondition.after (hupdate _ hcondition.same)

/-- The hidden slot of a switch takes no name. -/
theorem declares_selector (node : NodeId) (e : Expr) (hh : r.Holds scope seen) :
    Declares scope seen [] [] r (r.selector ctx node e) := by
  have hselector : Declares scope seen [] [] r (r.expr ctx e) := declares_expr e hh
  refine hselector.after ?_
  unfold selector allocate
  split
  · rename_i heq
    split at heq
    · cases heq
    · cases heq
      refine .report hselector.same ?_
      rintro f (_ | ⟨_, ⟨⟩⟩)
      rfl
  · rename_i heq
    split at heq
    · cases heq
      refine ⟨(Reports.refl _).of_faults rfl rfl, ?_⟩
      rw [List.map_nil, List.append_nil]
      exact hselector.same.of_eq (Nat.le_refl _) (fun _ => rfl) id
    · cases heq

theorem declares_loopInit {init : Option ForInit} (hi : ∀ v, init ≠ some (.declaration v))
    (hh : r.Holds scope seen) : Declares scope seen [] [] r (r.loopInit ctx init) := by
  cases init with
  | none => exact .refl hh
  | some i =>
    cases i with
    | declaration v => exact (hi v rfl).elim
    | assignment a => exact .report hh (.assignment a)

end Resolved

end Javelet.Scope
