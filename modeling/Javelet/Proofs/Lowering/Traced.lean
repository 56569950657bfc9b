import Javelet.Proofs.Lowering.Methods
import Javelet.Proofs.Lowering.Visits

/-!
# What the lowering does at its visits

The visits of the lowering are listed apart from the lowering itself. Here the two are tied to each
other: the lowering of a method runs the lowering of the place of each visit, in the surroundings of
the visit and to a part of the code of the method. Every slot in this code, apart from the one of
the receiver, is the slot of a variable or of a switch that is found from there.
-/
namespace Javelet

namespace Assembly

/-- The slot that an instruction loads or stores. -/
def Instruction.slot? : Instruction → Option Nat
  | load _ slot => some slot
  | store _ slot => some slot
  | _ => none

end Assembly

namespace Lowering

open Assembly

/-- The same surroundings inside of other loops and switches. -/
def Env.aimed (env : Env) (targets : List Targets) : Env := { env with targets := targets }

theorem aimed_enter (env : Env) (targets : List Targets) (node : NodeId) :
    (env.aimed targets).enter node = (env.enter node).aimed targets := rfl

theorem aimed_inside (env : Env) (targets : List Targets) (t : Targets) :
    (env.aimed targets).inside t = env.aimed (t :: targets) := rfl

/-! ## Parts of code -/

section Parts

variable {part front back whole : Segment} {item : Item Instruction}

theorem infix_left (h : part ++ back <:+: whole) : part <:+: whole :=
  (List.prefix_append part back).isInfix.trans h

theorem infix_right (h : front ++ part <:+: whole) : part <:+: whole :=
  (List.suffix_append front part).isInfix.trans h

theorem infix_tail (h : item :: part <:+: whole) : part <:+: whole :=
  (List.suffix_cons item part).isInfix.trans h

end Parts

/-! ## Visits in the code of a method -/

/-- In the lowering to the code of a method, the place of a visit is lowered in the surroundings of
the visit: what it is lowered to is a part of this code. A target is lowered with its assignment,
and behind a member the surroundings are those of the members of the class. -/
def Visit.LoweredIn (g : Visit) (whole : Segment) : Prop :=
  ∃ targets first next, match g.place with
    | .statement s => ∃ join code,
      Yields (statement (g.env.aimed targets) join s) first code next ∧ code <:+: whole
    | .target c => ∃ op value code,
      Yields (assignment (g.env.aimed targets) ⟨op, c, value⟩) first code next ∧ code <:+: whole
    | .expr (.access c) => ∃ v,
      Yields (chain (g.env.aimed targets) c) first v next ∧ v.code <:+: whole
    | .expr e => ∃ v, Yields (expr (g.env.aimed targets) e) first v next ∧ v.code <:+: whole
    | .boundary d => ∃ env c, g.env = classEnv env d ∧ Yields (class_ env d) first c next

/-- The slots that are found at a visit: of the name at the head of a chain, of the declared
variable and of the switch that stands there. -/
inductive Visit.Mentions (g : Visit) : Nat → Prop
  | name {n : String} {l : Local} : g.place.name? = some n → g.env.local? n = some l →
      Mentions g l.slot
  | declaration {v : Variable} {l : Local} : g.place = .statement (.declaration v) →
      g.env.local? v.name = some l → Mentions g l.slot
  | switch {p : Position} {id : NodeId} {e : Expr} {cases : List Case} {default_ : Option Block}
      {slot : Nat} : g.place = .statement (.switch p id e cases default_) →
      g.env.arena.reservedSlot id = some slot → Mentions g slot

/-- The visits are lowered in the code of a method, and the slots in a part of it are found at
them. -/
structure Traced (whole : Segment) (visits : List Visit) (code : Segment) : Prop where
  lowered : ∀ g ∈ visits, g.LoweredIn whole
  slots : ∀ slot ∈ readings Instruction.slot? code, slot = 0 ∨ ∃ g ∈ visits, g.Mentions slot

namespace Traced

variable {whole code rest : Segment} {visits more : List Visit} {g : Visit}

theorem nil (h : readings Instruction.slot? code = []) : Traced whole [] code := by
  refine ⟨fun _ hg => absurd hg List.not_mem_nil, ?_⟩
  rw [h]
  exact fun _ hs => absurd hs List.not_mem_nil

theorem append (h : Traced whole visits code) (h' : Traced whole more rest) :
    Traced whole (visits ++ more) (code ++ rest) := by
  refine ⟨?_, ?_⟩
  · intro g hg
    rcases List.mem_append.1 hg with hg | hg
    · exact h.lowered g hg
    · exact h'.lowered g hg
  · intro slot hs
    rw [readings_append] at hs
    rcases List.mem_append.1 hs with hs | hs
    · rcases h.slots slot hs with hzero | ⟨g, hg, hm⟩
      · exact .inl hzero
      · exact .inr ⟨g, List.mem_append_left _ hg, hm⟩
    · rcases h'.slots slot hs with hzero | ⟨g, hg, hm⟩
      · exact .inl hzero
      · exact .inr ⟨g, List.mem_append_right _ hg, hm⟩

/-- Code that has no other slots. -/
theorem congr (h : Traced whole visits code)
    (hs : ∀ slot ∈ readings Instruction.slot? rest,
      slot = 0 ∨ slot ∈ readings Instruction.slot? code) : Traced whole visits rest := by
  refine ⟨h.lowered, ?_⟩
  intro slot hslot
  rcases hs slot hslot with hzero | hslot
  · exact .inl hzero
  · exact h.slots slot hslot

/-- Code in which the slots of one more visit may stand. -/
theorem cons (hg : g.LoweredIn whole) (h : Traced whole visits code)
    (hs : ∀ slot ∈ readings Instruction.slot? rest,
      slot = 0 ∨ g.Mentions slot ∨ slot ∈ readings Instruction.slot? code) :
    Traced whole (g :: visits) rest := by
  refine ⟨List.forall_mem_cons.2 ⟨hg, h.lowered⟩, ?_⟩
  intro slot hslot
  rcases hs slot hslot with hzero | hm | hslot
  · exact .inl hzero
  · exact .inr ⟨g, List.mem_cons_self .., hm⟩
  · rcases h.slots slot hslot with hzero | ⟨g', hg', hm⟩
    · exact .inl hzero
    · exact .inr ⟨g', List.mem_cons_of_mem _ hg', hm⟩

end Traced

/-! ## Instructions without slots -/

@[simp] theorem slots_choice (b : Bool) (other finish : Label) :
    readings Instruction.slot? (choice b other finish) = [] := rfl

@[simp] theorem slot?_pushDefault (ty : Ty) : (Instruction.pushDefault ty).slot? = none := by
  unfold Instruction.pushDefault
  split <;> rfl

@[simp] theorem slot?_shortcut (c : Connective) (l : Label) : (shortcut c l).slot? = none := by
  cases c <;> rfl

@[simp] theorem slot?_invocation (owner : Types.TypeInfo) (name : String) (m : Types.MethodInfo) :
    (invocation owner name m).slot? = none := by
  unfold invocation
  split <;> rfl

theorem slot?_comparisonJump {op : BinaryOp} {left right : Ty} {target : Label} {i : Instruction}
    (h : comparisonJump? op left right target = some i) : i.slot? = none := by
  unfold comparisonJump? at h
  split at h
  · cases h
    rfl
  · split at h
    · split at h <;> cases h <;> rfl
    · cases h

@[simp] theorem slot?_load (cell : Cell) (slot : Nat) :
    (Instruction.load cell slot).slot? = some slot := rfl

@[simp] theorem slot?_store (cell : Cell) (slot : Nat) :
    (Instruction.store cell slot).slot? = some slot := rfl

/-! ## Expressions -/

variable {env : Env} {targets : List Targets} {first next : Label} {p : Position}
  {code whole : Segment}

/-- What is shown of every expression. -/
def TracedExpr (e : Expr) : Prop :=
  ∀ {env targets first v next whole}, Yields (expr (Env.aimed env targets) e) first v next →
    v.code <:+: whole → Traced whole (env.seen e.places) v.code

theorem seen_append (env : Env) (places places' : List Place) :
    env.seen (places ++ places') = env.seen places ++ env.seen places' :=
  List.map_append

theorem arguments_traced {args : List Expr} {as : Arguments} (ih : ∀ e ∈ args, TracedExpr e)
    (h : Yields (arguments (env.aimed targets) args) first as next) (hin : as.code <:+: whole) :
    Traced whole (env.seen (args.flatMap Expr.places)) as.code := by
  induction args generalizing first as with
  | nil =>
    simp only [arguments, yields_pure] at h
    obtain ⟨rfl, rfl⟩ := h
    exact .nil rfl
  | cons e rest ihrest =>
    obtain ⟨v, vs, middle, hv, hvs, rfl⟩ := yields_arguments_cons.1 h
    rw [List.forall_mem_cons] at ih
    rw [List.flatMap_cons, seen_append]
    exact (ih.1 hv (infix_left hin)).append (ihrest ih.2 hvs (infix_right hin))

/-- The head of a chain that stands at a visit. -/
theorem head_traced {h : Head} {r : Reached} {g : Visit} (ih : ∀ e ∈ h.operands, TracedExpr e)
    (hg : g.LoweredIn whole) (henv : g.env = env)
    (hname : ∀ p n, h = .name p n → g.place.name? = some n)
    (hy : Yields (head (env.aimed targets) h) first r next) (hin : r.code <:+: whole) :
    Traced whole (g :: env.seen (h.operands.flatMap Expr.places)) r.code := by
  cases h with
  | this p =>
    simp only [head, yields_pure] at hy
    obtain ⟨rfl, rfl⟩ := hy
    exact .cons hg (.nil (readings_nil _)) (by simp [Instruction.loadThis])
  | name p name =>
    simp only [head] at hy
    refine .cons hg (.nil (readings_nil _)) ?_
    obtain ⟨rfl, ⟨l, hl, rfl⟩ | ⟨owner, info, _, rfl⟩ | rfl⟩ := yields_nameHead hy
    · have hm : g.Mentions l.slot := .name (hname p name rfl) (henv ▸ hl)
      simpa [Local.load] using .inr hm
    · simp [Instruction.slot?, Instruction.loadThis]
    · simp
  | call p name args =>
    obtain ⟨as, result, middle, ha, hc, rfl⟩ := yields_head_call.1 hy
    obtain ⟨owner, m, _, _, _, rfl, rfl⟩ := yields_call.1 hc
    refine .cons hg (arguments_traced ih ha (infix_left (infix_tail hin))) ?_
    have hinvoke := slot?_invocation owner name m
    simp +contextual [hinvoke, Instruction.loadThis]

theorem link_traced {receiver : Receiver} {l : Link} {r : Reached}
    (ih : ∀ e ∈ l.operands, TracedExpr e)
    (hy : Yields (link (env.aimed targets) receiver l) first r next) (hin : r.code <:+: whole) :
    Traced whole (env.seen (l.operands.flatMap Expr.places)) r.code := by
  cases l with
  | field p name =>
    simp only [link] at hy
    obtain ⟨rfl, ⟨_, rfl⟩ | ⟨_, _, _, rfl⟩ | ⟨_, _, _, _, _, _, rfl⟩⟩ := yields_fieldStep hy
    · exact .nil rfl
    · exact .nil rfl
    · exact .nil rfl
  | call p name args =>
    rcases yields_link_call hy with ⟨line, as, _, _, ha, rfl⟩ | ⟨ty, as, middle, _, _, ha, hc⟩
    · exact (arguments_traced ih ha (infix_left hin)).congr
        (by simp +contextual [Instruction.slot?])
    · obtain ⟨owner, m, _, _, _, rfl, rfl⟩ := yields_call.1 hc
      exact (arguments_traced ih ha (infix_left hin)).congr (by simp +contextual)
  | index p i =>
    obtain ⟨ty, v, _, _, hv, _, rfl⟩ := yields_link_index hy
    rw [Link.operands, List.flatMap_singleton]
    exact (ih i (List.mem_singleton.2 rfl) hv (infix_left hin)).congr
      (by simp +contextual [Instruction.slot?])

theorem links_traced {start r : Reached} {ls : List Link}
    (ih : ∀ l ∈ ls, ∀ e ∈ l.operands, TracedExpr e)
    (hy : Yields (links (env.aimed targets) start ls) first r next) (hin : r.code <:+: whole) :
    ∃ tail, r.code = start.code ++ tail ∧
      Traced whole (env.seen ((ls.flatMap Link.operands).flatMap Expr.places)) tail := by
  induction ls generalizing start first with
  | nil =>
    simp only [links, yields_pure] at hy
    obtain ⟨rfl, rfl⟩ := hy
    exact ⟨[], by simp, .nil rfl⟩
  | cons l rest ihrest =>
    obtain ⟨step, middle, hstep, hrest⟩ := yields_links_cons.1 hy
    rw [List.forall_mem_cons] at ih
    obtain ⟨tail, htail, htraced⟩ := ihrest ih.2 hrest
    refine ⟨step.code ++ tail, by simp [htail], ?_⟩
    rw [List.flatMap_cons, List.flatMap_append, seen_append]
    rw [htail] at hin
    exact (link_traced ih.1 hstep (infix_right (infix_left hin))).append htraced

/-- The chain that stands at a visit. -/
theorem chain_traced {h : Head} {ls : List Link} {v : Typed} {g : Visit}
    (ihh : ∀ e ∈ h.operands, TracedExpr e) (ihl : ∀ l ∈ ls, ∀ e ∈ l.operands, TracedExpr e)
    (hg : g.LoweredIn whole) (henv : g.env = env)
    (hname : ∀ p n, h = .name p n → g.place.name? = some n)
    (hy : Yields (chain (env.aimed targets) (.mk h ls)) first v next) (hin : v.code <:+: whole) :
    Traced whole (g :: env.seen ((Chain.mk h ls).operands.flatMap Expr.places)) v.code := by
  obtain ⟨start, r, middle, hs, hr, _, hcode⟩ := yields_chain.1 hy
  rw [hcode] at hin
  obtain ⟨tail, htail, htraced⟩ := links_traced ihl hr hin
  rw [htail] at hin
  rw [hcode, htail, Chain.operands, List.flatMap_append, seen_append, ← List.cons_append]
  exact (head_traced ihh hg henv hname hs (infix_left hin)).append htraced

theorem literal_slots (value : Literal) : readings Instruction.slot? (literal value).code = [] := by
  cases value <;> rfl

theorem expr_traced (e : Expr) : TracedExpr e := by
  induction e using Expr.induction with
  | literal p value =>
    intro env targets first v next whole h hin
    have hg : Visit.LoweredIn ⟨.expr (.literal p value), env⟩ whole :=
      ⟨targets, first, next, v, h, hin⟩
    simp only [expr, yields_pure] at h
    obtain ⟨rfl, rfl⟩ := h
    rw [Expr.places_literal]
    exact .cons hg (.nil (readings_nil _)) (by simp [literal_slots])
  | binary op left right ihl ihr =>
    intro env targets first v next whole h hin
    have hg : Visit.LoweredIn ⟨.expr (.binary op left right), env⟩ whole :=
      ⟨targets, first, next, v, h, hin⟩
    rw [Expr.places_binary, Env.seen, List.map_cons, List.map_append]
    cases op with
    | arithmetic op =>
      obtain ⟨l, r, middle, hl, hr, _, _, rfl⟩ := yields_expr_arithmetic.1 h
      have hleft := ihl hl (infix_left (infix_left hin))
      have hright := ihr hr (infix_right (infix_left hin))
      exact .cons hg (hleft.append hright) (by simp +contextual [Instruction.slot?])
    | relation op =>
      obtain ⟨l, r, middle, yes, jump, hl, hr, hjump, rfl, rfl⟩ := yields_expr_relation.1 h
      have hslot := slot?_comparisonJump hjump
      have hleft := ihl hl (infix_left (infix_left hin))
      have hright := ihr hr (infix_right (infix_left hin))
      exact .cons hg (hleft.append hright) (by simp +contextual [hslot])
    | connective op =>
      obtain ⟨l, r, middle, hl, _, hr, _, rfl⟩ := yields_expr_connective.1 h
      have hleft := ihl hl (infix_left (infix_left hin))
      have hright := ihr hr (infix_tail (infix_right (infix_left hin)))
      exact .cons hg (hleft.append hright) (by simp +contextual)
  | access h ls ihh ihl =>
    intro env targets first v next whole hy hin
    have hc := (yields_expr_access.1 hy).1
    rw [Expr.places_access]
    refine chain_traced ihh ihl ⟨targets, first, next, v, hc, hin⟩ rfl ?_ hc hin
    rintro p n rfl
    rfl
  | newObject p className args ih =>
    intro env targets first v next whole h hin
    have hg : Visit.LoweredIn ⟨.expr (.newObject p className args), env⟩ whole :=
      ⟨targets, first, next, v, h, hin⟩
    obtain ⟨as, middle, ha, hc⟩ := yields_expr_newObject.1 h
    obtain ⟨m, _, _, rfl, rfl⟩ := yields_construct.1 hc
    rw [Expr.places_newObject]
    have hargs := arguments_traced ih ha (infix_left (infix_tail (infix_tail hin)))
    exact .cons hg hargs (by simp +contextual [Instruction.slot?])
  | newArray p element length ih =>
    intro env targets first v next whole h hin
    have hg : Visit.LoweredIn ⟨.expr (.newArray p element length), env⟩ whole :=
      ⟨targets, first, next, v, h, hin⟩
    obtain ⟨n, middle, hn, hc⟩ := yields_expr_newArray.1 h
    obtain ⟨_, rfl, rfl⟩ := yields_constructArray.1 hc
    rw [Expr.places_newArray]
    have hlength := ih hn (infix_left hin)
    exact .cons hg hlength (by simp +contextual [Instruction.slot?])

/-! ## Simple statements -/

theorem mem_slots_assigning {op : AssignOp} {old : List Instruction} {value : Segment}
    {store : Instruction} {slot : Nat}
    (h : slot ∈ readings Instruction.slot? (assigning op old value store)) :
    slot ∈ old.filterMap Instruction.slot? ∨ slot ∈ readings Instruction.slot? value ∨
      store.slot? = some slot := by
  cases op with
  | plain =>
    right
    simpa [assigning, oldValue, combination] using h
  | compound op => simpa [assigning, oldValue, combination, Instruction.slot?, or_assoc] using h

/-- The value of an assignment stands in its code. -/
theorem infix_assigning {op : AssignOp} {old : List Instruction} {value : Segment}
    {store : Instruction} : value <:+: assigning op old value store :=
  ⟨oldValue op old, ops (combination op) ++ ops [store], by simp [assigning]⟩

/-- The assignment to a bare name that stands at a visit. -/
theorem assignName_traced {name : String} {op : AssignOp} {value : Expr} {g : Visit}
    (hg : g.LoweredIn whole) (henv : g.env = env) (hname : g.place.name? = some name)
    (h : Yields (assignName (env.aimed targets) name p op value) first code next)
    (hin : code <:+: whole) : Traced whole (g :: env.seen value.places) code := by
  obtain ⟨v, hv, ⟨l, hl, rfl⟩ | ⟨owner, info, -, -, rfl⟩⟩ := yields_assignName h
  · refine .cons hg (expr_traced value hv (infix_assigning.trans hin)) ?_
    intro slot hslot
    have hm : g.Mentions l.slot := .name hname (henv ▸ hl)
    rcases mem_slots_assigning hslot with hslot | hslot | hslot
    · obtain rfl : slot = l.slot := by simpa [Local.load] using hslot
      exact .inr (.inl hm)
    · exact .inr (.inr hslot)
    · obtain rfl : l.slot = slot := by simpa [Local.store] using hslot
      exact .inr (.inl hm)
  · have hvalue := infix_assigning.trans (infix_tail hin)
    refine .cons hg (expr_traced value hv hvalue) ?_
    intro slot hslot
    rw [readings_op] at hslot
    rcases List.mem_append.1 hslot with hslot | hslot
    · exact .inl (by simpa [Instruction.loadThis] using hslot)
    · rcases mem_slots_assigning hslot with hslot | hslot | hslot
      · cases hslot
      · exact .inr (.inr hslot)
      · cases hslot

theorem assignLink_traced {receiver : Receiver} {last : Link} {op : AssignOp} {value : Expr}
    (h : Yields (assignLink (env.aimed targets) receiver p last op value) first code next)
    (hin : code <:+: whole) :
    Traced whole (env.seen ((last.operands ++ [value]).flatMap Expr.places)) code := by
  rcases yields_assignLink h with ⟨_, _, _, _, _, v, rfl, _, _, _, hv, rfl⟩ |
    ⟨_, i, _, place, v, middle, rfl, _, _, hplace, hv, rfl⟩
  · rw [Link.operands, List.nil_append, List.flatMap_singleton]
    refine (expr_traced value hv (infix_assigning.trans hin)).congr ?_
    intro slot hslot
    rcases mem_slots_assigning hslot with hslot | hslot | hslot
    · cases hslot
    · exact .inr hslot
    · cases hslot
  · rw [Link.operands, List.flatMap_append, List.flatMap_singleton, List.flatMap_singleton,
      seen_append]
    have hindex := expr_traced i hplace (infix_left hin)
    have hvalue := expr_traced value hv (infix_assigning.trans (infix_right hin))
    refine (hindex.append hvalue).congr ?_
    intro slot hslot
    rw [readings_append] at hslot ⊢
    rcases List.mem_append.1 hslot with hslot | hslot
    · exact .inr (List.mem_append_left _ hslot)
    · rcases mem_slots_assigning hslot with hslot | hslot | hslot
      · cases hslot
      · exact .inr (List.mem_append_right _ hslot)
      · cases hslot

theorem assignment_traced {a : Assignment}
    (h : Yields (assignment (env.aimed targets) a) first code next) (hin : code <:+: whole) :
    Traced whole (env.seen (Action.assignment a).places) code := by
  have hg : Visit.LoweredIn ⟨.target a.target, env⟩ whole :=
    ⟨targets, first, next, a.op, a.value, code, h, hin⟩
  rw [Action.places, Env.seen, List.map_cons]
  rcases yields_assignment h with ⟨p, name, htarget, h⟩ |
    ⟨hd, ls, last, start, reached, middle, middle', tail, htarget, hhead, hlinks, hlast, rfl⟩
  · have hname : Place.name? (.target a.target) = some name := by
      rw [htarget]
      rfl
    have htraced := assignName_traced hg rfl hname h hin
    rw [htarget] at htraced ⊢
    simpa [Chain.operands, Chain.head, Chain.links, Head.operands, Env.seen] using htraced
  · have hreached := infix_left hin
    obtain ⟨steps, hsteps, htraced⟩ :=
      links_traced (fun _ _ e _ => expr_traced e) hlinks hreached
    have hname : ∀ p n, hd = .name p n → Place.name? (.target a.target) = some n := by
      rintro p n rfl
      rw [htarget]
      rfl
    have hstart := head_traced (fun e _ => expr_traced e) hg rfl hname hhead
      (infix_left (hsteps ▸ hreached))
    have hlast := assignLink_traced hlast (infix_right hin)
    have hall := (hstart.append htraced).append hlast
    rw [hsteps]
    rw [htarget] at hall ⊢
    simpa [Chain.operands, Chain.head, Chain.links, Env.seen] using hall

theorem action_traced {a : Action} (h : Yields (action (env.aimed targets) a) first code next)
    (hin : code <:+: whole) : Traced whole (env.seen a.places) code := by
  cases a with
  | assignment a => exact assignment_traced h hin
  | call c =>
    obtain ⟨v, hv, rfl⟩ := yields_action_call.1 h
    obtain ⟨hd, ls⟩ := c
    have hname : ∀ p n, hd = .name p n → Place.name? (.expr (.access (.mk hd ls))) = some n := by
      rintro p n rfl
      rfl
    have hvalue : v.code <:+: whole := by
      split at hin
      · exact hin
      · exact infix_left hin
    have hg : Visit.LoweredIn ⟨.expr (.access (.mk hd ls)), env⟩ whole :=
      ⟨targets, first, next, v, hv, hvalue⟩
    have htraced := chain_traced (fun e _ => expr_traced e) (fun _ _ e _ => expr_traced e) hg rfl
      hname hv hvalue
    rw [Action.places, Expr.places_access]
    split
    · exact htraced
    · exact htraced.congr (by simp +contextual [Instruction.slot?])

theorem variable_traced {v : Variable} {g : Visit} (hg : g.LoweredIn whole) (henv : g.env = env)
    (hplace : g.place = .statement (.declaration v))
    (h : Yields (variable_ (env.aimed targets) v) first code next) (hin : code <:+: whole) :
    Traced whole (g :: env.seen (v.value.toList.flatMap Expr.places)) code := by
  obtain ⟨l, hl, hcode⟩ := yields_variable.1 h
  have hm : g.Mentions l.slot := .declaration hplace (henv ▸ hl)
  rcases hcode with ⟨hnone, rfl, rfl⟩ | ⟨e, value, hsome, hv, rfl⟩
  · rw [hnone]
    refine .cons hg (.nil (readings_nil _)) ?_
    simpa [Local.store] using .inr hm
  · rw [hsome, Option.toList_some, List.flatMap_singleton]
    refine .cons hg (expr_traced e hv (infix_left hin)) ?_
    intro slot hslot
    rw [readings_append] at hslot
    rcases List.mem_append.1 hslot with hslot | hslot
    · exact .inr (.inr hslot)
    · obtain rfl : slot = l.slot := by simpa [Local.store] using hslot
      exact .inr (.inl hm)

theorem jump_traced {j : Jump} (h : Yields (jump (env.aimed targets) p j) first code next)
    (hin : code <:+: whole) : Traced whole (env.seen (Statement.jump p j).own) code := by
  have hg : Visit.LoweredIn ⟨.statement (.jump p j), env⟩ whole := by
    refine ⟨targets, first, next, none, code, ?_, hin⟩
    rw [statement]
    exact h
  refine @Traced.cons whole code code _ _ hg ?_ fun _ => .inr ∘ .inr
  cases j with
  | return_ value =>
    cases value with
    | none =>
      simp only [jump, yields_pure] at h
      obtain ⟨rfl, rfl⟩ := h
      exact .nil rfl
    | some e =>
      obtain ⟨v, hv, rfl⟩ := yields_jump_value.1 h
      refine (expr_traced e hv (infix_left hin)).congr ?_
      cases v.type.isInteger <;> simp +contextual [Instruction.slot?]
  | break_ =>
    obtain ⟨_, _, rfl, rfl⟩ := yields_jump_break.1 h
    exact .nil rfl
  | continue_ =>
    obtain ⟨_, _, rfl, rfl⟩ := yields_jump_continue.1 h
    exact .nil rfl

theorem test_traced {e : Expr} {yes no : Label}
    (h : Yields (test (env.aimed targets) e yes no) first code next) (hin : code <:+: whole) :
    Traced whole (env.seen e.places) code := by
  obtain ⟨v, hv, _, rfl⟩ := yields_test.1 h
  exact (expr_traced e hv (infix_left hin)).congr
    (by simp +contextual [Instruction.slot?])

theorem forTest_traced {e : Option Expr} {yes no : Label}
    (h : Yields (forTest (env.aimed targets) e yes no) first code next) (hin : code <:+: whole) :
    Traced whole (env.seen (conditionPlaces e)) code := by
  cases e with
  | none =>
    obtain ⟨rfl, rfl⟩ := yields_pure.1 h
    exact .nil rfl
  | some e =>
    rw [conditionPlaces, Option.toList_some, List.flatMap_singleton]
    exact test_traced h hin

/-- A test of a switch loads the selector and nothing else. -/
theorem slots_caseTests {l : Local} {label : Label} {cases : List Case}
    (h : Yields (caseTests l label cases) first code next) :
    ∀ slot ∈ readings Instruction.slot? code, slot = l.slot := by
  induction cases generalizing label code with
  | nil =>
    obtain ⟨_, rfl⟩ := yields_caseTests_nil.1 h
    exact nofun
  | cons c cases ih =>
    obtain ⟨value, rest, _, hrest, rfl⟩ := yields_caseTests_cons.1 h
    simpa [Local.load, Instruction.slot?] using ih hrest

/-! ## Statements -/

/-- What is shown of every statement. -/
def TracedStatement (s : Statement) : Prop :=
  ∀ {env targets join first code next whole},
    Yields (statement (Env.aimed env targets) join s) first code next → code <:+: whole →
    Traced whole (env.visits s) code

/-- The declaration or the assignment that starts a for loop. -/
theorem forInit_traced {init : Option ForInit}
    (h : Yields (forInit (env.aimed targets) init) first code next) (hin : code <:+: whole) :
    Traced whole (env.seen (initPlaces init)) code := by
  match init, h with
  | none, h =>
    obtain ⟨rfl, rfl⟩ := yields_pure.1 h
    exact .nil rfl
  | some (.declaration v), h =>
    rw [initPlaces, Option.toList_some, List.flatMap_singleton]
    have hg : Visit.LoweredIn ⟨.statement (.declaration v), env⟩ whole := by
      refine ⟨targets, first, next, none, code, ?_, hin⟩
      rw [statement]
      exact h
    exact variable_traced hg rfl rfl h hin
  | some (.assignment a), h =>
    rw [initPlaces, Option.toList_some, List.flatMap_singleton]
    have hg : Visit.LoweredIn ⟨.statement (.action (.assignment a)), env⟩ whole := by
      refine ⟨targets, first, next, none, code, ?_, hin⟩
      rw [statement]
      exact h
    exact .cons hg (assignment_traced h hin) fun _ => .inr ∘ .inr

theorem forUpdate_traced {update : Option Action}
    (h : Yields (forUpdate (env.aimed targets) update) first code next) (hin : code <:+: whole) :
    Traced whole (env.seen (updatePlaces update)) code := by
  cases update with
  | none =>
    obtain ⟨rfl, rfl⟩ := yields_pure.1 h
    exact .nil rfl
  | some a =>
    rw [updatePlaces, Option.toList_some, List.flatMap_singleton]
    have hg : Visit.LoweredIn ⟨.statement (.action a), env⟩ whole := by
      refine ⟨targets, first, next, none, code, ?_, hin⟩
      rw [statement]
      exact h
    exact .cons hg (action_traced h hin) fun _ => .inr ∘ .inr

theorem statements_traced {ss : List Statement} (ih : ∀ s ∈ ss, TracedStatement s)
    (h : Yields (statements (env.aimed targets) [] ss) first code next) (hin : code <:+: whole) :
    Traced whole (env.statementVisits ss) code := by
  induction ss generalizing first code with
  | nil =>
    obtain ⟨rfl, rfl⟩ := yields_statements_nil.1 h
    rw [Env.statementVisits]
    exact .nil rfl
  | cons s ss ihss =>
    obtain ⟨c, rest, middle, hc, hrest, rfl⟩ := yields_statements_cons.1 h
    rw [List.forall_mem_cons] at ih
    rw [Env.statementVisits]
    exact (ih.1 hc (infix_left hin)).append (ihss ih.2 hrest (infix_right hin))

theorem block_traced {b : Block} (ih : ∀ s ∈ b.statements, TracedStatement s)
    (h : Yields (block (env.aimed targets) b) first code next) (hin : code <:+: whole) :
    Traced whole (env.blockVisits b) code := by
  have hstatements := yields_block.1 h
  obtain ⟨id, p, ss⟩ := b
  rw [Env.blockVisits]
  exact @statements_traced (env.enter id) targets _ _ _ whole ss ih hstatements hin

theorem caseBodies_traced {cases : List Case} {label : Label}
    (ih : ∀ c ∈ cases, ∀ s ∈ c.body.statements, TracedStatement s)
    (h : Yields (caseBodies (env.aimed targets) [] label cases) first code next)
    (hin : code <:+: whole) : Traced whole (env.caseVisits cases) code := by
  induction cases generalizing label first code with
  | nil =>
    obtain ⟨rfl, rfl⟩ := yields_caseBodies_nil.1 h
    rw [Env.caseVisits]
    exact .nil rfl
  | cons c cases ihc =>
    obtain ⟨body, rest, middle, hbody, hrest, rfl⟩ := yields_caseBodies_cons.1 h
    rw [List.forall_mem_cons] at ih
    obtain ⟨p, q, l, b⟩ := c
    rw [Env.caseVisits]
    have hblock := block_traced ih.1 hbody (infix_tail (infix_left hin))
    have hcases := ihc ih.2 hrest (infix_right hin)
    exact (hblock.append hcases).congr (by simp +contextual)

theorem defaultBody_traced {default_ : Option Block} {label : Label}
    (ih : ∀ b ∈ default_, ∀ s ∈ b.statements, TracedStatement s)
    (h : Yields (defaultBody (env.aimed targets) label default_) first code next)
    (hin : code <:+: whole) : Traced whole (env.defaultVisits default_) code := by
  cases default_ with
  | none =>
    obtain ⟨rfl, rfl⟩ := yields_pure.1 h
    rw [Env.defaultVisits]
    exact .nil rfl
  | some b =>
    obtain ⟨body, hbody, rfl⟩ := yields_defaultBody.1 h
    rw [Env.defaultVisits]
    exact (block_traced (ih b rfl) hbody (infix_tail hin)).congr (by simp +contextual)

theorem elseBranch_traced {otherwise : Option Statement} {no finish : Label}
    (ih : ∀ s ∈ otherwise, TracedStatement s)
    (h : Yields (elseBranch (env.aimed targets) no finish otherwise) first code next)
    (hin : code <:+: whole) : Traced whole (env.otherwiseVisits otherwise) code := by
  cases otherwise with
  | none =>
    obtain ⟨rfl, rfl⟩ := yields_pure.1 h
    rw [Env.otherwiseVisits]
    exact .nil rfl
  | some s =>
    rw [Env.otherwiseVisits]
    rcases yields_elseBranch.1 h with ⟨_, c, hc, rfl⟩ | ⟨_, c, hc, rfl⟩
    · exact (ih s rfl hc (infix_tail hin)).congr (by simp +contextual)
    · exact (ih s rfl hc (infix_tail (infix_left hin))).congr
        (by simp +contextual [Instruction.slot?])

theorem statement_traced (s : Statement) : TracedStatement s := by
  induction s using Statement.induction with
  | block b ih =>
    intro env targets join first code next whole h hin
    have hg : Visit.LoweredIn ⟨.statement (.block b), env⟩ whole :=
      ⟨targets, first, next, join, code, h, hin⟩
    rw [statement] at h
    rw [Env.visits]
    exact .cons hg (block_traced ih h hin) fun _ => .inr ∘ .inr
  | conditional p e body otherwise ihbody ihother =>
    intro env targets join first code next whole h hin
    have hg : Visit.LoweredIn ⟨.statement (.conditional p e body otherwise), env⟩ whole :=
      ⟨targets, first, next, join, code, h, hin⟩
    obtain ⟨decision, inner, rest, middle, middle', hd, hi, hr, rfl⟩ := yields_conditional.1 h
    have hbranches := infix_left hin
    have hbranch := infix_left hbranches
    have hdecision := test_traced hd (infix_left hbranch)
    have hinner := ihbody hi (infix_tail (infix_right hbranch))
    have hrest := elseBranch_traced ihother hr (infix_tail (infix_right hbranches))
    have hparts := hdecision.append (hinner.append hrest)
    rw [Env.visits]
    refine .cons hg hparts ?_
    intro slot hslot
    right
    right
    cases join with
    | none => simpa [Instruction.slot?, or_assoc] using hslot
    | some l => simpa [Instruction.slot?, or_assoc] using hslot
  | whileLoop p e body ih =>
    intro env targets join first code next whole h hin
    have hg : Visit.LoweredIn ⟨.statement (.whileLoop p e body), env⟩ whole :=
      ⟨targets, first, next, join, code, h, hin⟩
    obtain ⟨decision, inner, middle, hd, hi, rfl⟩ := yields_whileLoop.1 h
    rw [Env.visits]
    have hloop := infix_left hin
    have hdecision := test_traced hd (infix_tail (infix_left hloop))
    have hinner : Traced whole (env.visits body) inner := ih hi (infix_tail (infix_right hloop))
    refine .cons hg (hdecision.append hinner) ?_
    intro slot hslot
    right
    right
    simpa [Instruction.slot?] using hslot
  | forLoop p id init e update body ih =>
    intro env targets join first code next whole h hin
    have hg : Visit.LoweredIn ⟨.statement (.forLoop p id init e update body), env⟩ whole :=
      ⟨targets, first, next, join, code, h, hin⟩
    obtain ⟨before, decision, inner, after, top, middle, middle', hb, hd, hi, ha, rfl⟩ :=
      yields_forLoop.1 h
    rw [aimed_enter] at hb hd ha
    rw [aimed_enter, aimed_inside] at hi
    have hround := infix_left hin
    have hloop := infix_left hround
    have hentry := infix_left hloop
    have hbefore := forInit_traced hb (infix_left hentry)
    have hdecision := forTest_traced hd (infix_tail (infix_right hentry))
    have hinner := ih hi (infix_tail (infix_right hloop))
    have hafter := forUpdate_traced ha (infix_tail (infix_right hround))
    have hparts := hbefore.append (hdecision.append (hafter.append hinner))
    rw [Env.visits]
    refine .cons hg hparts ?_
    intro slot hslot
    simp only [readings_append, readings_op, readings_label, readings_nil, Instruction.slot?,
      Option.toList_none, List.mem_append, List.append_nil] at hslot ⊢
    grind
  | switch p id e cases default_ ihc ihd =>
    intro env targets join first code next whole h hin
    have hg : Visit.LoweredIn ⟨.statement (.switch p id e cases default_), env⟩ whole :=
      ⟨targets, first, next, join, code, h, hin⟩
    obtain ⟨slot, store, tests, bodies, last, label, miss, finish, middle, rfl, rfl, hslot, hs, ht,
      hb, hl, rfl⟩ := yields_switch.1 h
    obtain ⟨v, hv, -, rfl⟩ := yields_selector.1 hs
    have hm : Visit.Mentions ⟨.statement (.switch p id e cases default_), env⟩ slot :=
      .switch rfl hslot
    rw [aimed_inside] at hb hl
    have harms := infix_left hin
    have hcases := infix_left harms
    have hselector := expr_traced e hv (infix_left (infix_left (infix_left hcases)))
    have hbodies := caseBodies_traced ihc hb (infix_tail (infix_right hcases))
    have hlast := defaultBody_traced ihd hl (infix_right harms)
    have hparts := hselector.append (hbodies.append hlast)
    have htests := slots_caseTests ht
    rw [Env.visits]
    refine .cons hg hparts ?_
    intro slot' hslot'
    simp only [readings_append, readings_op, readings_label, readings_nil, readings_ops,
      Local.store, Instruction.slot?, Option.toList_none, List.filterMap_cons, List.filterMap_nil,
      List.mem_append, List.append_nil, List.nil_append, List.mem_singleton] at hslot' ⊢
    grind
  | jump p j =>
    intro env targets join first code next whole h hin
    rw [statement] at h
    rw [Env.visits]
    exact jump_traced h hin
  | action a =>
    intro env targets join first code next whole h hin
    have hg : Visit.LoweredIn ⟨.statement (.action a), env⟩ whole :=
      ⟨targets, first, next, join, code, h, hin⟩
    rw [statement] at h
    rw [Env.visits]
    exact .cons hg (action_traced h hin) fun _ => .inr ∘ .inr
  | declaration v =>
    intro env targets join first code next whole h hin
    have hg : Visit.LoweredIn ⟨.statement (.declaration v), env⟩ whole :=
      ⟨targets, first, next, join, code, h, hin⟩
    rw [statement] at h
    rw [Env.visits]
    exact variable_traced hg rfl rfl h hin

/-! ## Declarations -/

theorem initializer_traced {x : Property}
    (h : Yields (initializer env x) first code next) (hin : code <:+: whole) :
    Traced whole (env.seen (x.variable_.value.toList.flatMap Expr.places)) code := by
  rcases yields_initializer h with ⟨hnone, -, rfl⟩ | ⟨e, v, hsome, hv, rfl⟩
  · have hput : (Instruction.putField env.className x.variable_.name x.variable_.type).slot? =
        none := rfl
    rw [hnone]
    exact (Traced.nil (readings_nil _)).congr (by simp [Instruction.loadThis, hput])
  · rw [hsome, Option.toList_some, List.flatMap_singleton]
    have hvalue := infix_tail (infix_left hin)
    exact (@expr_traced e env env.targets _ _ _ whole hv hvalue).congr
      (by simp +contextual [Instruction.loadThis, Instruction.slot?])

theorem initializers_traced {properties : List Property} {values : List Segment}
    (h : Yields (properties.mapM (initializer env)) first values next)
    (hin : values.flatten <:+: whole) :
    Traced whole (env.seen ((properties.filterMap fun x => x.variable_.value).flatMap Expr.places))
      values.flatten := by
  induction properties generalizing first values with
  | nil =>
    obtain ⟨-, rfl⟩ := yields_mapM_nil.1 h
    exact .nil rfl
  | cons x properties ih =>
    obtain ⟨value, rest, middle, hx, hrest, rfl⟩ := yields_mapM_cons.1 h
    rw [List.flatten_cons] at hin
    have hall := (initializer_traced hx (infix_left hin)).append (ih hrest (infix_right hin))
    rw [← seen_append, ← List.flatMap_append] at hall
    rw [List.filterMap_cons]
    cases hvalue : x.variable_.value with
    | none =>
      rw [hvalue] at hall
      exact hall
    | some e =>
      rw [hvalue] at hall
      exact hall

theorem prologue_traced {superclass : String} {d : ClassDecl}
    (h : Yields (prologue env superclass d.properties) first code next) (hin : code <:+: whole) :
    Traced whole (env.seen (d.values.flatMap Expr.places)) code := by
  obtain ⟨values, hv, rfl⟩ := yields_prologue.1 h
  exact (initializers_traced hv (infix_right hin)).congr
    (by simp +contextual [Instruction.loadThis, Instruction.slot?])

theorem body_traced {m : Method}
    (h : Yields (block (env.enter m.signature.id) m.body) first code next) (hin : code <:+: whole) :
    Traced whole ((env.enter m.signature.id).blockVisits m.body) code :=
  @block_traced (env.enter m.signature.id) env.targets _ _ _ whole m.body
    (fun s _ => statement_traced s) h hin

/-- The lowering to the code of a method runs the lowering of all places on tours. -/
def RunsTours (tours : List (Tour Visit)) (mc : MethodCode) : Prop :=
  ∀ t ∈ tours, ∀ g ∈ t.visits, g.LoweredIn mc.code

/-- Each method of a class runs the lowering of the places on the tours to it. -/
theorem class_runs {d : ClassDecl} {c : ClassSection} (h : Yields (class_ env d) first c next) :
    List.Forall₂ RunsTours (env.blockTours d) c.methods := by
  have hboundary : ∀ whole, Visit.LoweredIn ⟨.boundary d, classEnv env d⟩ whole :=
    fun _ => ⟨[], first, next, env, c, rfl, h⟩
  have hvalues : ∀ {superclass first before next whole},
      Yields (prologue (classEnv env d) superclass d.properties) first before next →
      before <:+: whole → ∀ g ∈ ((classEnv env d).valueTour d).visits, g.LoweredIn whole := by
    intro superclass first before next whole hp hin
    rw [Env.valueTour, seen_append, List.forall_mem_append]
    exact ⟨(prologue_traced hp hin).lowered, List.forall_mem_singleton.2 (hboundary whole)⟩
  have hmethod : ∀ {header before m first mc next},
      Yields (methodCode (classEnv env d) header before m) first mc next →
      before <:+: mc.code ∧
        ∀ g ∈ ((classEnv env d).methodTour d m).visits, g.LoweredIn mc.code := by
    intro header before m first mc next hy
    obtain ⟨body, hbody, rfl⟩ := yields_methodCode.1 hy
    rw [Env.methodTour, List.forall_mem_append]
    exact ⟨infix_left List.infix_rfl,
      (body_traced hbody (infix_right List.infix_rfl)).lowered,
      List.forall_mem_singleton.2 (hboundary _)⟩
  obtain ⟨constructors, methods, default_, middle, middle', hc, hm, hdefault, hall, -⟩ :=
    yields_class h
  rw [Env.blockTours, hall]
  refine List.rel_append (List.rel_append ?_ ?_) ?_
  · refine List.forall₂_map_left_iff.2 (forall₂_mapM ?_ hc)
    intro m _ first mc next hy
    obtain ⟨before, middle, hp, hcode⟩ := yields_constructor.1 hy
    obtain ⟨hin, hbody⟩ := hmethod hcode
    exact List.forall_mem_cons.2 ⟨hvalues hp hin, List.forall_mem_singleton.2 hbody⟩
  · refine List.forall₂_map_left_iff.2 (forall₂_mapM ?_ hm)
    intro m _ first mc next hy
    exact List.forall_mem_singleton.2 (hmethod hy).2
  · rcases hdefault with ⟨hnone, mc, rfl, hy⟩ | ⟨hsome, rfl, -⟩
    · simp only [defaultConstructor, yields_bind, yields_pure] at hy
      obtain ⟨before, _, hp, rfl, -⟩ := hy
      rw [hnone]
      exact .cons (List.forall_mem_singleton.2 (hvalues hp List.infix_rfl)) .nil
    · rw [if_neg fun hempty => hsome (List.isEmpty_iff.1 hempty)]
      exact .nil

/-- The lowering of a program runs the lowering of the places on all its tours, method by method. -/
theorem program_runs {table : Types.Table} {arena : Arena} {p : Program} {sections : List Section}
    (h : program table arena p = .ok sections) :
    List.Forall₂ (fun decl s => ∀ d, decl = .class_ d → ∃ c, s = .class_ c ∧
        List.Forall₂ RunsTours ((Env.outermost table arena).blockTours d) c.methods)
      p.declarations sections := by
  obtain ⟨next, hy⟩ := yields_program h
  refine forall₂_mapM ?_ hy
  rintro _ - first s next hs d rfl
  obtain ⟨c, hc, rfl⟩ := yields_typeDecl_class.1 hs
  exact ⟨c, rfl, class_runs hc⟩

end Lowering

end Javelet
