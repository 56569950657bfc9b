import Javelet.Proofs.Lowering.Entities
import Javelet.Proofs.Phrases.Jumps

/-!
# Faults that are ruled out

Some faults of the lowering cannot be left when a program has been read and its types and names are
in order. They are looked up again all the same. Where all visits of a piece of a program find what
they look for, and its jumps have targets, the lowering of the piece stops with none of these
faults.
-/
namespace Javelet.Lowering

open Assembly Grammar

/-- The faults that the stages before the lowering rule out. -/
def Fault.isRuledOut : Fault → Bool
  | undefinedType _ | undefinedVariable _ | noSelectorSlot | badCaseLabel | strayBreak
  | strayContinue => true
  | _ => false

/-- The lowering stops with no fault that is ruled out. -/
def Avoids {α : Type} (x : Lower α) : Prop :=
  ∀ first l, x.run first = .error l → l.fault.isRuledOut = false

namespace Avoids

variable {α β : Type} {x : Lower α} {fault : Fault} {p : Position}

theorem pure {a : α} : Avoids (Pure.pure a : Lower α) := fun _ _ h => by cases h

theorem bind {f : α → Lower β} (hx : Avoids x) (hf : ∀ a, Avoids (f a)) : Avoids (x >>= f) := by
  intro first l h
  rw [StateT.run_bind] at h
  cases hrun : x.run first with
  | error l' =>
    rw [hrun] at h
    cases h
    exact hx first l hrun
  | ok r =>
    rw [hrun] at h
    exact hf r.1 r.2 l h

theorem map {f : α → β} (hx : Avoids x) : Avoids (f <$> x) := by
  rw [← bind_pure_comp]
  exact hx.bind fun _ => .pure

theorem refuse (h : fault.isRuledOut = false) : Avoids (Lowering.refuse fault p : Lower α) := by
  rintro first l ⟨⟩
  exact h

theorem require {a : Option α} (h : fault.isRuledOut = false) :
    Avoids (Lowering.require a fault p) := by
  cases a with
  | none => exact refuse h
  | some a => exact pure

/-- What is there is not missed. -/
theorem present {a : Option α} (h : ∃ b, a = some b) : Avoids (Lowering.require a fault p) := by
  obtain ⟨b, rfl⟩ := h
  exact pure

theorem ite {c : Prop} [Decidable c] {y : Lower α} (hx : Avoids x) (hy : Avoids y) :
    Avoids (if c then x else y) := by
  split
  · exact hx
  · exact hy

theorem freshLabels {count : Nat} : Avoids (Lowering.freshLabels count) :=
  fun _ _ h => by cases h

theorem freshLabel : Avoids Lowering.freshLabel := freshLabels

/-- A label that is drawn in some cases only. -/
theorem freshOr {c : Prop} [Decidable c] {l : Label} {k : Label → Lower β}
    (hk : ∀ next, Avoids (k next)) :
    Avoids (if c then Lowering.freshLabel >>= k else Pure.pure l >>= k) :=
  .ite (.bind freshLabel hk) (.bind pure hk)

theorem mapM {f : β → Lower α} {xs : List β} (h : ∀ b ∈ xs, Avoids (f b)) :
    Avoids (xs.mapM f) := by
  induction xs with
  | nil => exact pure
  | cons b xs ih =>
    rw [List.forall_mem_cons] at h
    rw [List.mapM_cons]
    exact h.1.bind fun _ => (ih h.2).bind fun _ => pure

end Avoids

/-! ## Visits -/

/-- What a visit looks up is there: something that the name at the head of a chain stands for, the
slot of a declared variable, and the hidden slot of a switch. -/
structure Visit.Resolved (g : Visit) : Prop where
  name : ∀ n, g.place.name? = some n → ∃ e, g.env.entity? n = some e
  declaration : ∀ v, g.place = .statement (.declaration v) → ∃ l, g.env.local? v.name = some l
  switch : ∀ p id e cases default_, g.place = .statement (.switch p id e cases default_) →
    ∃ slot, g.env.arena.reservedSlot id = some slot

/-- All visits of some places are resolved. -/
def Env.Resolves (env : Env) (places : List Place) : Prop := ∀ g ∈ env.seen places, g.Resolved

variable {env : Env} {targets : List Targets} {around : Surroundings} {p : Position}

theorem Env.Resolves.aimed {places : List Place} (h : env.Resolves places)
    (targets : List Targets) : (env.aimed targets).Resolves places := by
  intro g hg
  obtain ⟨place, hplace, rfl⟩ := List.mem_map.1 hg
  obtain ⟨hname, hdeclaration, hswitch⟩ := h ⟨place, env⟩ (List.mem_map_of_mem hplace)
  exact ⟨hname, hdeclaration, hswitch⟩

theorem resolves_cons {place : Place} {places : List Place} :
    env.Resolves (place :: places) ↔ Visit.Resolved ⟨place, env⟩ ∧ env.Resolves places :=
  List.forall_mem_cons

theorem resolves_append {places more : List Place} :
    env.Resolves (places ++ more) ↔ env.Resolves places ∧ env.Resolves more := by
  rw [Env.Resolves, seen_append, List.forall_mem_append]
  rfl

theorem resolves_flatMap {es : List Expr} :
    env.Resolves (es.flatMap Expr.places) ↔ ∀ e ∈ es, env.Resolves e.places := by
  induction es with
  | nil => exact ⟨fun _ => List.forall_mem_nil _, fun _ => List.forall_mem_nil _⟩
  | cons e es ih => rw [List.flatMap_cons, resolves_append, ih, List.forall_mem_cons]

/-! ## Members -/

theorem checkCount_avoids {count : Nat} : Avoids (checkCount count p) :=
  .ite .pure (.refuse rfl)

theorem call_avoids {receiver : Ty} {name : String} {args : Arguments} :
    Avoids (call env receiver name p args) := by
  refine .bind (.require rfl) ?_
  rintro ⟨owner, m⟩
  dsimp only
  split
  · exact .bind (.refuse rfl) fun _ => .bind checkCount_avoids fun _ => .pure
  · exact .bind checkCount_avoids fun _ => .pure

theorem property_avoids {className name : String} : Avoids (property env className name p) := by
  unfold property
  split
  · exact .pure
  · exact .refuse rfl

/-- A name that stands for something is not missed. -/
theorem nameHead_avoids {name : String} (h : ∃ e, env.entity? name = some e) :
    Avoids (nameHead env name p) := by
  obtain ⟨e, he⟩ := h
  unfold nameHead
  unfold Env.entity? at he
  split
  · exact .pure
  · rename_i hlocal
    rw [hlocal] at he
    split
    · exact .pure
    · rename_i hproperty
      rw [hproperty] at he
      split
      · exact .pure
      · rename_i hne
        rw [if_neg hne] at he
        cases he

theorem fieldStep_avoids {receiver : Receiver} {name : String} :
    Avoids (fieldStep env receiver name p) := by
  cases receiver with
  | system => exact .ite .pure (.refuse rfl)
  | printStream => exact .refuse rfl
  | value ty =>
    exact .ite .pure (.ite (.bind property_avoids fun _ => .pure) (.refuse rfl))

/-! ## Expressions -/

/-- What is shown of every expression. -/
def AvoidsExpr (e : Expr) : Prop := ∀ {env : Env}, env.Resolves e.places → Avoids (expr env e)

theorem arguments_avoids {args : List Expr} (ih : ∀ e ∈ args, AvoidsExpr e)
    (h : env.Resolves (args.flatMap Expr.places)) : Avoids (arguments env args) := by
  induction args with
  | nil => exact .pure
  | cons e rest ihrest =>
    rw [List.forall_mem_cons] at ih
    rw [List.flatMap_cons, resolves_append] at h
    rw [arguments]
    exact .bind (ih.1 h.1) fun _ => .bind (ihrest ih.2 h.2) fun _ => .pure

theorem head_avoids {h : Head} (ih : ∀ e ∈ h.operands, AvoidsExpr e)
    (hname : ∀ p n, h = .name p n → ∃ e, env.entity? n = some e)
    (hoperands : env.Resolves (h.operands.flatMap Expr.places)) : Avoids (head env h) := by
  cases h with
  | this p => exact .pure
  | name p name => exact nameHead_avoids (hname p name rfl)
  | call p name args =>
    exact .bind (arguments_avoids ih hoperands) fun _ => .bind call_avoids fun _ => .pure

theorem link_avoids {receiver : Receiver} {l : Link} (ih : ∀ e ∈ l.operands, AvoidsExpr e)
    (h : env.Resolves (l.operands.flatMap Expr.places)) : Avoids (link env receiver l) := by
  cases l with
  | field p name => exact fieldStep_avoids
  | call p name args =>
    cases receiver with
    | system => exact .refuse rfl
    | printStream =>
      exact .bind (.require rfl) fun _ => .bind (arguments_avoids ih h) fun _ => .pure
    | value ty =>
      exact .ite (.bind (arguments_avoids ih h) fun _ => call_avoids) (.refuse rfl)
  | index p i =>
    rw [Link.operands, List.flatMap_singleton] at h
    cases receiver with
    | system => exact .refuse rfl
    | printStream => exact .refuse rfl
    | value ty =>
      refine .ite (.bind (ih i (List.mem_singleton.2 rfl) h) fun _ => ?_) (.refuse rfl)
      exact .bind (.ite .pure (.refuse rfl)) fun _ => .pure

theorem links_avoids {ls : List Link} {start : Reached}
    (ih : ∀ l ∈ ls, ∀ e ∈ l.operands, AvoidsExpr e)
    (h : env.Resolves ((ls.flatMap Link.operands).flatMap Expr.places)) :
    Avoids (links env start ls) := by
  induction ls generalizing start with
  | nil => exact .pure
  | cons l rest ihrest =>
    rw [List.forall_mem_cons] at ih
    rw [List.flatMap_cons, List.flatMap_append, resolves_append] at h
    rw [links]
    exact .bind (link_avoids ih.1 h.1) fun _ => ihrest ih.2 h.2

theorem chain_avoids {h : Head} {ls : List Link} (ihh : ∀ e ∈ h.operands, AvoidsExpr e)
    (ihl : ∀ l ∈ ls, ∀ e ∈ l.operands, AvoidsExpr e)
    (hname : ∀ p n, h = .name p n → ∃ e, env.entity? n = some e)
    (hoperands : env.Resolves ((Chain.mk h ls).operands.flatMap Expr.places)) :
    Avoids (chain env (.mk h ls)) := by
  rw [Chain.operands, List.flatMap_append, resolves_append] at hoperands
  rw [chain]
  refine .bind (head_avoids ihh hname hoperands.1) fun start => ?_
  refine .bind (links_avoids ihl hoperands.2) fun reached => ?_
  split
  · exact .pure
  · exact .refuse rfl

theorem asCondition_avoids {x : Lower Typed} (h : Avoids x) : Avoids (asCondition p x) :=
  .bind h fun _ => .ite .pure (.refuse rfl)

/-- The name at the head of a chain that stands at a resolved place. -/
theorem resolved_head {place : Place} {h : Head} (hg : Visit.Resolved ⟨place, env⟩)
    (hplace : ∀ p n, h = .name p n → place.name? = some n) :
    ∀ p n, h = .name p n → ∃ e, env.entity? n = some e :=
  fun p n hn => hg.name n (hplace p n hn)

theorem expr_avoids (e : Expr) : AvoidsExpr e := by
  induction e using Expr.induction with
  | literal p value => exact fun _ => .pure
  | binary op left right ihl ihr =>
    intro env h
    rw [Expr.places_binary, resolves_cons, resolves_append] at h
    obtain ⟨-, hl, hr⟩ := h
    cases op with
    | arithmetic op =>
      refine .bind (ihl hl) fun l => .bind (ihr hr) fun r => ?_
      exact .ite .pure (.refuse rfl)
    | relation op =>
      refine .bind (ihl hl) fun l => .bind (ihr hr) fun r => .bind .freshLabel fun yes => ?_
      exact .bind .freshLabel fun finish => .bind (.require rfl) fun _ => .pure
    | connective op =>
      refine .bind .freshLabel fun decided => .bind .freshLabel fun finish => ?_
      refine .bind (asCondition_avoids (ihl hl)) fun l => ?_
      exact .bind (asCondition_avoids (ihr hr)) fun r => .pure
  | access h ls ihh ihl =>
    intro env hplaces
    rw [Expr.places_access, resolves_cons] at hplaces
    rw [expr]
    refine .bind (chain_avoids ihh ihl (resolved_head hplaces.1 ?_) hplaces.2) fun v => ?_
    · rintro p n rfl
      rfl
    · dsimp only
      split
      · exact .bind (.refuse rfl) fun _ => .pure
      · exact .pure
  | newObject p className args ih =>
    intro env h
    rw [Expr.places_newObject, resolves_cons] at h
    rw [expr]
    refine .bind (arguments_avoids ih h.2) fun as => .bind (.require rfl) fun m => ?_
    exact .bind checkCount_avoids fun _ => .pure
  | newArray p element length ih =>
    intro env h
    rw [Expr.places_newArray, resolves_cons] at h
    rw [expr]
    exact .bind (ih h.2) fun n => .ite .pure (.refuse rfl)

theorem chain_avoids_of {c : Chain} {place : Place} (hg : Visit.Resolved ⟨place, env⟩)
    (hplace : ∀ p n, c.head = .name p n → place.name? = some n)
    (h : env.Resolves (c.operands.flatMap Expr.places)) : Avoids (chain env c) := by
  obtain ⟨hd, ls⟩ := c
  exact chain_avoids (fun e _ => expr_avoids e) (fun _ _ e _ => expr_avoids e)
    (resolved_head hg hplace) h

/-! ## Simple statements -/

theorem assignedValue_avoids {op : AssignOp} {target : Ty} {value : Typed} :
    Avoids (assignedValue op target p value) := by
  cases op with
  | plain => exact .pure
  | compound op => exact .ite .pure (.refuse rfl)

theorem assignName_avoids {name : String} {op : AssignOp} {value : Expr}
    (h : env.Resolves value.places) : Avoids (assignName env name p op value) := by
  unfold assignName
  split
  · exact .bind (expr_avoids value h) fun _ => .bind assignedValue_avoids fun _ => .pure
  · refine .bind property_avoids fun _ => .bind (expr_avoids value h) fun _ => ?_
    exact .bind (.bind assignedValue_avoids fun _ => .pure) fun _ => .pure

theorem assignLink_avoids {receiver : Receiver} {last : Link} {op : AssignOp} {value : Expr}
    (h : env.Resolves ((last.operands ++ [value]).flatMap Expr.places)) :
    Avoids (assignLink env receiver p last op value) := by
  rw [List.flatMap_append, resolves_append, List.flatMap_singleton] at h
  obtain ⟨hlast, hvalue⟩ := h
  unfold assignLink
  split
  · refine .ite (.bind property_avoids fun _ => ?_) (.refuse rfl)
    refine .bind (expr_avoids value hvalue) fun _ => ?_
    exact .bind assignedValue_avoids fun _ => .pure
  · rw [Link.operands, List.flatMap_singleton] at hlast
    refine .ite (.bind ?_ fun _ => ?_) (.refuse rfl)
    · exact .bind (expr_avoids _ hlast) fun _ => .ite .pure (.refuse rfl)
    · refine .bind (expr_avoids value hvalue) fun _ => ?_
      exact .bind (.bind assignedValue_avoids fun _ => .pure) fun _ => .pure
  · exact .refuse rfl

theorem assignment_avoids {a : Assignment} (h : env.Resolves (Action.assignment a).places) :
    Avoids (assignment env a) := by
  obtain ⟨op, ⟨hd, ls⟩, value⟩ := a
  rw [Action.places, resolves_cons, List.flatMap_append, resolves_append, Chain.operands,
    List.flatMap_append, resolves_append] at h
  obtain ⟨htarget, ⟨hhead, hlinks⟩, hvalue⟩ := h
  simp only [Chain.head, Chain.links, List.flatMap_singleton] at hhead hlinks hvalue
  unfold assignment
  dsimp only [Chain.links, Chain.head]
  split
  · split
    · exact assignName_avoids hvalue
    · exact .refuse rfl
  · rename_i last hlast
    obtain ⟨before, rfl⟩ := List.getLast?_eq_some_iff.1 hlast
    rw [List.flatMap_append, List.flatMap_append, resolves_append, List.flatMap_singleton] at hlinks
    rw [List.dropLast_concat]
    refine .bind (head_avoids (fun e _ => expr_avoids e) (resolved_head htarget ?_) hhead)
      fun start => ?_
    · rintro p n rfl
      rfl
    · refine .bind (links_avoids (fun _ _ e _ => expr_avoids e) hlinks.1) fun reached => ?_
      refine .bind (assignLink_avoids ?_) fun code => .pure
      rw [List.flatMap_append, resolves_append, List.flatMap_singleton]
      exact ⟨hlinks.2, hvalue⟩

theorem action_avoids {a : Action} (h : env.Resolves a.places) : Avoids (action env a) := by
  cases a with
  | assignment a => exact assignment_avoids h
  | call c =>
    rw [Action.places, Expr.places_access, resolves_cons] at h
    refine .bind (chain_avoids_of h.1 ?_ h.2) fun v => .pure
    obtain ⟨hd, ls⟩ := c
    rintro p n rfl
    rfl

theorem variable_avoids {v : Variable} (h : env.Resolves (Statement.declaration v).own) :
    Avoids (variable_ env v) := by
  rw [Statement.own, resolves_cons, resolves_flatMap] at h
  refine .bind (.present (h.1.declaration v rfl)) fun l => ?_
  split
  · rename_i value hvalue
    refine .bind (expr_avoids value (h.2 value (Option.mem_toList.2 hvalue))) fun _ => ?_
    exact .bind assignedValue_avoids fun _ => .pure
  · exact .pure

/-! ## Statements -/

/-- The targets of the loops and the switches around a statement serve its jumps. -/
structure Serves (targets : List Targets) (around : Surroundings) : Prop where
  break_ : around.breakable = true → ∃ l, targets.head?.map Targets.break_ = some l
  continue_ : around.loop = true → ∃ l, targets.findSome? Targets.continue_ = some l

theorem serves_none : Serves targets .none := ⟨nofun, nofun⟩

theorem serves_inLoop (step bottom : Label) : Serves (⟨some step, bottom⟩ :: targets) .inLoop :=
  ⟨fun _ => ⟨bottom, rfl⟩, fun _ => ⟨step, rfl⟩⟩

/-- A switch serves `break`, and `continue` is left to the loops around it. -/
theorem Serves.inSwitch (h : Serves targets around) (finish : Label) :
    Serves (⟨none, finish⟩ :: targets) around.inSwitch :=
  ⟨fun _ => ⟨finish, rfl⟩, h.continue_⟩

theorem jump_avoids {j : Jump} (hfits : j.Fits around) (ht : Serves targets around)
    (h : env.Resolves (Statement.jump p j).own) : Avoids (jump (env.aimed targets) p j) := by
  cases j with
  | return_ value =>
    cases value with
    | none => exact .pure
    | some e =>
      rw [Statement.own, resolves_cons] at h
      exact .bind (expr_avoids e (h.2.aimed targets)) fun _ => .pure
  | break_ => exact .bind (.present (ht.break_ hfits)) fun _ => .pure
  | continue_ => exact .bind (.present (ht.continue_ hfits)) fun _ => .pure

theorem test_avoids {e : Expr} {yes no : Label} (h : env.Resolves e.places) :
    Avoids (test env e yes no) :=
  .bind (asCondition_avoids (expr_avoids e h)) fun _ => .pure

theorem forInit_avoids {init : Option ForInit} (h : env.Resolves (initPlaces init)) :
    Avoids (forInit env init) := by
  match init with
  | none => exact .pure
  | some (.declaration v) =>
    rw [initPlaces, Option.toList_some, List.flatMap_singleton] at h
    exact variable_avoids h
  | some (.assignment a) =>
    rw [initPlaces, Option.toList_some, List.flatMap_singleton] at h
    exact assignment_avoids (resolves_cons.1 h).2

theorem forTest_avoids {e : Option Expr} {yes no : Label} (h : env.Resolves (conditionPlaces e)) :
    Avoids (forTest env e yes no) := by
  cases e with
  | none => exact .pure
  | some e =>
    rw [conditionPlaces, Option.toList_some, List.flatMap_singleton] at h
    exact test_avoids h

theorem forUpdate_avoids {update : Option Action} (h : env.Resolves (updatePlaces update)) :
    Avoids (forUpdate env update) := by
  cases update with
  | none => exact .pure
  | some a =>
    rw [updatePlaces, Option.toList_some, List.flatMap_singleton] at h
    exact action_avoids (resolves_cons.1 h).2

theorem selector_avoids {e : Expr} {l : Local} (h : env.Resolves e.places) :
    Avoids (selector env e l) :=
  .bind (expr_avoids e h) fun _ => .ite .pure (.refuse rfl)

/-- Labels that are integers, characters or booleans have values. -/
theorem caseTests_avoids {l : Local} {first : Label} {cases : List Case}
    (h : ∀ c ∈ cases, LabelValue c.label) : Avoids (caseTests l first cases) := by
  refine .bind (.mapM ?_) fun _ => .pure
  rintro ⟨c, target⟩ hc
  refine .bind (.present ?_) fun _ => .pure
  have hlabel := h c (List.fst_mem_of_mem_zipIdx hc)
  cases hl : c.label with
  | int value => exact ⟨_, rfl⟩
  | char value => exact ⟨_, rfl⟩
  | boolean value => exact ⟨_, rfl⟩
  | string value =>
    rw [hl] at hlabel
    cases hlabel
  | null =>
    rw [hl] at hlabel
    cases hlabel

/-- What is shown of every statement. -/
def AvoidsStatement (s : Statement) : Prop :=
  ∀ {env : Env} {targets around join}, s.Fits around → Serves targets around →
    (∀ g ∈ env.visits s, g.Resolved) → Avoids (statement (env.aimed targets) join s)

theorem statements_avoid {ss : List Statement} {done : List Segment}
    (ih : ∀ s ∈ ss, AvoidsStatement s) (hfits : ∀ s ∈ ss, s.Fits around)
    (ht : Serves targets around) (h : ∀ g ∈ env.statementVisits ss, g.Resolved) :
    Avoids (statements (env.aimed targets) done ss) := by
  induction ss generalizing done with
  | nil =>
    rw [statements]
    exact .pure
  | cons s ss ihss =>
    rw [List.forall_mem_cons] at ih hfits
    rw [Env.statementVisits, List.forall_mem_append] at h
    rw [statements]
    exact .bind (ih.1 hfits.1 ht h.1) fun _ => ihss ih.2 hfits.2 h.2

theorem block_avoids {b : Block} (ih : ∀ s ∈ b.statements, AvoidsStatement s)
    (hfits : b.Fits around) (ht : Serves targets around)
    (h : ∀ g ∈ env.blockVisits b, g.Resolved) : Avoids (block (env.aimed targets) b) := by
  obtain ⟨id, p, ss⟩ := b
  rw [Env.blockVisits] at h
  rw [block, aimed_enter]
  exact statements_avoid ih hfits ht h

theorem caseBodies_avoid {cases : List Case} {done : List Segment} {label : Label}
    (ih : ∀ c ∈ cases, ∀ s ∈ c.body.statements, AvoidsStatement s)
    (hfits : ∀ c ∈ cases, ∀ s ∈ c.body.statements, s.Fits around) (ht : Serves targets around)
    (h : ∀ g ∈ env.caseVisits cases, g.Resolved) :
    Avoids (caseBodies (env.aimed targets) done label cases) := by
  induction cases generalizing done label with
  | nil =>
    rw [caseBodies]
    exact .pure
  | cons c cases ihc =>
    obtain ⟨p, q, l, b⟩ := c
    rw [List.forall_mem_cons] at ih hfits
    rw [Env.caseVisits, List.forall_mem_append] at h
    rw [caseBodies]
    exact .bind (block_avoids ih.1 hfits.1 ht h.1) fun _ => ihc ih.2 hfits.2 h.2

theorem defaultBody_avoids {default_ : Option Block} {label : Label}
    (ih : ∀ b ∈ default_, ∀ s ∈ b.statements, AvoidsStatement s)
    (hfits : ∀ b ∈ default_, ∀ s ∈ b.statements, s.Fits around) (ht : Serves targets around)
    (h : ∀ g ∈ env.defaultVisits default_, g.Resolved) :
    Avoids (defaultBody (env.aimed targets) label default_) := by
  cases default_ with
  | none =>
    rw [defaultBody]
    exact .pure
  | some b =>
    rw [Env.defaultVisits] at h
    rw [defaultBody]
    exact .bind (block_avoids (ih b rfl) (hfits b rfl) ht h) fun _ => .pure

theorem elseBranch_avoids {otherwise : Option Statement} {next finish : Label}
    (ih : ∀ s ∈ otherwise, AvoidsStatement s) (hfits : ∀ s ∈ otherwise, s.Fits around)
    (ht : Serves targets around) (h : ∀ g ∈ env.otherwiseVisits otherwise, g.Resolved) :
    Avoids (elseBranch (env.aimed targets) next finish otherwise) := by
  cases otherwise with
  | none =>
    rw [elseBranch]
    exact .pure
  | some s =>
    rw [Env.otherwiseVisits] at h
    rw [elseBranch]
    split
    · exact .bind (ih s rfl (hfits s rfl) ht h) fun _ => .pure
    · exact .bind (ih s rfl (hfits s rfl) ht h) fun _ => .pure

theorem statement_avoids (s : Statement) : AvoidsStatement s := by
  induction s using Statement.induction with
  | block b ih =>
    intro env targets around join hfits ht h
    cases hfits with
    | block hb =>
      rw [Env.visits, List.forall_mem_append] at h
      rw [statement]
      exact block_avoids ih hb ht h.2
  | conditional p e body otherwise ihbody ihother =>
    intro env targets around join hfits ht h
    cases hfits with
    | conditional hbody hother =>
      rw [Env.visits, List.forall_mem_append, List.forall_mem_append] at h
      have he : env.Resolves e.places := (resolves_cons.1 h.1).2
      rw [statement]
      refine .bind .freshLabel fun yes => .bind .freshLabel fun no => ?_
      refine .freshOr fun next => ?_
      refine .bind (test_avoids (he.aimed targets)) fun decision => ?_
      refine .bind (ihbody hbody ht h.2.1) fun inner => ?_
      exact .bind (elseBranch_avoids ihother hother ht h.2.2) fun rest => .pure
  | whileLoop p e body ih =>
    intro env targets around join hfits ht h
    cases hfits with
    | whileLoop hbody =>
      rw [Env.visits, List.forall_mem_append] at h
      have he : env.Resolves e.places := (resolves_cons.1 h.1).2
      rw [statement]
      refine .bind .freshLabel fun top => .bind .freshLabel fun start => ?_
      refine .bind .freshLabel fun bottom => ?_
      refine .bind (test_avoids (he.aimed targets)) fun decision => ?_
      rw [aimed_inside]
      exact .bind (ih hbody (serves_inLoop ..) h.2) fun inner => .pure
  | forLoop p id init e update body ih =>
    intro env targets around join hfits ht h
    cases hfits with
    | forLoop hbody =>
      rw [Env.visits] at h
      simp only [List.forall_mem_append] at h
      obtain ⟨-, hinit, htest, hupdate, hvisits⟩ := h
      rw [statement, aimed_enter]
      refine .bind (forInit_avoids (Env.Resolves.aimed hinit targets)) fun before => ?_
      refine .bind .freshLabel fun top => .bind .freshLabel fun start => ?_
      refine .bind .freshLabel fun step => .bind .freshLabel fun bottom => ?_
      refine .bind (forTest_avoids (Env.Resolves.aimed htest targets)) fun decision => ?_
      rw [aimed_inside]
      refine .bind (ih hbody (serves_inLoop ..) hvisits) fun inner => ?_
      exact .bind (forUpdate_avoids (Env.Resolves.aimed hupdate targets)) fun after => .pure
  | switch p id e cases default_ ihc ihd =>
    intro env targets around join hfits ht h
    cases hfits with
    | switch hlabels hcases hdefault =>
      rw [Env.visits] at h
      simp only [List.forall_mem_append] at h
      obtain ⟨hown, hcaseVisits, hdefaultVisits⟩ := h
      obtain ⟨hswitch, he⟩ := resolves_cons.1 hown
      rw [statement]
      refine .bind (.present (hswitch.switch _ _ _ _ _ rfl)) fun slot => ?_
      refine .bind (selector_avoids (Env.Resolves.aimed he targets)) fun store => ?_
      refine .bind .freshLabels fun first => .bind .freshLabels fun otherwise => ?_
      refine .bind .freshLabel fun finish => .bind (caseTests_avoids hlabels) fun tests => ?_
      rw [aimed_inside]
      refine .bind (caseBodies_avoid ihc hcases (ht.inSwitch finish) hcaseVisits) fun bodies => ?_
      exact .bind (defaultBody_avoids ihd hdefault (ht.inSwitch finish) hdefaultVisits)
        fun last => .pure
  | jump p j =>
    intro env targets around join hfits ht h
    cases hfits with
    | jump hj =>
      rw [Env.visits] at h
      rw [statement]
      exact jump_avoids hj ht h
  | action a =>
    intro env targets around join _ ht h
    rw [Env.visits] at h
    rw [statement]
    exact action_avoids (Env.Resolves.aimed (resolves_cons.1 h).2 targets)
  | declaration v =>
    intro env targets around join _ ht h
    rw [Env.visits] at h
    rw [statement]
    exact variable_avoids (Env.Resolves.aimed h targets)

/-! ## Declarations -/

theorem initializer_avoids {p : Property} (h : ∀ e ∈ p.variable_.value, env.Resolves e.places) :
    Avoids (initializer env p) := by
  unfold initializer
  dsimp only
  split
  · rename_i e he
    exact .bind (.map (expr_avoids e (h e he))) fun value => .pure
  · exact .bind .pure fun value => .pure

/-- The initial values of a class are lowered for each constructor. -/
theorem prologue_avoids {d : ClassDecl} {superclass : String}
    (h : env.Resolves (d.values.flatMap Expr.places)) :
    Avoids (prologue env superclass d.properties) := by
  refine .bind (.mapM fun p hp => initializer_avoids fun e he => ?_) fun values => .pure
  exact resolves_flatMap.1 h e (List.mem_filterMap.2 ⟨p, hp, he⟩)

theorem methodCode_avoids {m : Method} {header : Header} {before : Segment}
    (hfits : m.body.Fits .none)
    (h : ∀ g ∈ (env.enter m.signature.id).blockVisits m.body, g.Resolved) :
    Avoids (methodCode env header before m) := by
  refine .bind ?_ fun body => .pure
  exact @block_avoids (env.enter m.signature.id) env.targets .none m.body
    (fun s _ => statement_avoids s) hfits serves_none h

theorem class_avoids {d : ClassDecl} {info : Types.TypeInfo}
    (hinfo : env.table.lookup d.name = .ok info) (hfits : ∀ m ∈ d.members, m.body.Fits .none)
    (hmembers : ∀ m ∈ d.members,
      ∀ g ∈ ((classEnv env d).enter m.signature.id).blockVisits m.body, g.Resolved)
    (hvalues : (classEnv env d).Resolves (d.values.flatMap Expr.places)) :
    Avoids (class_ env d) := by
  have hmembersEq : d.members = d.constructors ++ (d.methods ++ d.main.toList) :=
    List.append_assoc ..
  rw [hmembersEq] at hfits hmembers
  unfold class_
  rw [hinfo]
  refine .bind .pure fun info => .bind (.mapM fun m hm => ?_) fun constructors => ?_
  · have hm' := List.mem_append_left (d.methods ++ d.main.toList) hm
    exact .bind (prologue_avoids hvalues) fun before =>
      methodCode_avoids (hfits m hm') (hmembers m hm')
  · refine .bind (.mapM fun m hm => ?_) fun methods => ?_
    · have hm' := List.mem_append_right d.constructors hm
      exact methodCode_avoids (hfits m hm') (hmembers m hm')
    · split
      · refine .bind (.map (.bind (prologue_avoids hvalues) fun before => .pure)) fun default_ => ?_
        exact .pure
      · exact .bind .pure fun default_ => .pure

end Javelet.Lowering
