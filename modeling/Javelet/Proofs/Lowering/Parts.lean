import Javelet.Proofs.Lowering.Yields

/-!
# The parts of a lowered statement

What the lowering of each kind of statement runs, and how the code of the parts is put
together. Lists of statements and of case bodies are lowered with the code so far in hand;
here they are one part behind the other.
-/
namespace Javelet.Lowering

open Assembly

variable {env : Env} {first next : Label} {p : Position} {code : Segment}

/-! ## Assignments -/

/-- What a compound assignment does with the old and the new value on the stack. -/
def combination : AssignOp → List Instruction
  | .plain => []
  | .compound op => [.arithmetic op]

/-- The code of an assignment behind the code of its place: the old value if it is needed, the
new one, and the instruction that stores it. -/
def assigning (op : AssignOp) (old : List Instruction) (value : Segment) (store : Instruction) :
    Segment :=
  oldValue op old ++ value ++ ops (combination op) ++ ops [store]

theorem yields_assignedValue {op : AssignOp} {target : Ty} {value : Typed} :
    Yields (assignedValue op target p value) first code next ↔
      next = first ∧ code = value.code ++ ops (combination op) ∧
        (op ≠ .plain → target.isInteger = true ∧ value.type.isInteger = true) := by
  cases op with
  | plain => simp [assignedValue, combination, ops, and_comm]
  | compound op =>
    simp only [assignedValue, yields_ite, yields_pure, yields_refuse, and_false, or_false,
      Bool.and_eq_true, combination]
    constructor
    · rintro ⟨hint, rfl, rfl⟩
      exact ⟨rfl, rfl, fun _ => hint⟩
    · rintro ⟨rfl, rfl, hint⟩
      exact ⟨hint (fun h => by cases h), rfl, rfl⟩

theorem yields_storeLocal {l : Local} {op : AssignOp} {value : Typed} :
    Yields (storeLocal l op p value) first code next ↔
      next = first ∧ code = assigning op [l.load] value.code l.store ∧
        (op ≠ .plain → l.type.isInteger = true ∧ value.type.isInteger = true) := by
  simp only [storeLocal, yields_bind, yields_assignedValue, yields_pure]
  constructor
  · rintro ⟨_, _, ⟨rfl, rfl, hint⟩, rfl, rfl⟩
    exact ⟨rfl, by simp [assigning], hint⟩
  · rintro ⟨rfl, rfl, hint⟩
    exact ⟨_, _, ⟨rfl, rfl, hint⟩, by simp [assigning], rfl⟩

theorem yields_storeField {owner name : String} {ty : Ty} {op : AssignOp} {value : Typed} :
    Yields (storeField owner name ty op p value) first code next ↔
      next = first ∧ code = assigning op [.dup, .getField owner name ty] value.code
          (.putField owner name ty) ∧
        (op ≠ .plain → ty.isInteger = true ∧ value.type.isInteger = true) := by
  simp only [storeField, yields_bind, yields_assignedValue, yields_pure]
  constructor
  · rintro ⟨_, _, ⟨rfl, rfl, hint⟩, rfl, rfl⟩
    exact ⟨rfl, by simp [assigning], hint⟩
  · rintro ⟨rfl, rfl, hint⟩
    exact ⟨_, _, ⟨rfl, rfl, hint⟩, by simp [assigning], rfl⟩

theorem yields_storeElement {ty : Ty} {op : AssignOp} {value : Typed} :
    Yields (storeElement ty op p value) first code next ↔
      next = first ∧ code = assigning op [.dup2, .arrayLoad (.ofTy ty)] value.code
          (.arrayStore (.ofTy ty)) ∧
        (op ≠ .plain → ty.isInteger = true ∧ value.type.isInteger = true) := by
  simp only [storeElement, yields_bind, yields_assignedValue, yields_pure]
  constructor
  · rintro ⟨_, _, ⟨rfl, rfl, hint⟩, rfl, rfl⟩
    exact ⟨rfl, by simp [assigning], hint⟩
  · rintro ⟨rfl, rfl, hint⟩
    exact ⟨_, _, ⟨rfl, rfl, hint⟩, by simp [assigning], rfl⟩

/-- The assignment to a bare name, by what the name stands for. -/
theorem yields_assignName {name : String} {op : AssignOp} {value : Expr}
    (h : Yields (assignName env name p op value) first code next) :
    ∃ v, Yields (expr env value) first v next ∧
      ((∃ l, env.local? name = some l ∧ code = assigning op [l.load] v.code l.store) ∨
       (∃ owner info, env.local? name = none ∧
         env.table.findProperty env.className name = some (owner, info) ∧
         code = .op .loadThis :: assigning op [.dup, .getField owner.name name info.type] v.code
           (.putField owner.name name info.type))) := by
  unfold assignName at h
  split at h
  · rename_i l hl
    simp only [yields_bind, yields_storeLocal] at h
    obtain ⟨v, _, hv, rfl, rfl, _⟩ := h
    exact ⟨v, hv, .inl ⟨l, hl, rfl⟩⟩
  · rename_i hnone
    simp only [yields_bind, yields_property, yields_storeField, yields_pure] at h
    obtain ⟨_, _, ⟨owner, info, hp, rfl, rfl⟩, v, _, hv, _, _, ⟨rfl, rfl, _⟩, rfl, rfl⟩ := h
    exact ⟨v, hv, .inr ⟨owner, info, hnone, hp, rfl⟩⟩

/-- The assignment to the last link of a chain: a field or an element. -/
theorem yields_assignLink {receiver : Receiver} {start : Position} {last : Link} {op : AssignOp}
    {value : Expr} (h : Yields (assignLink env receiver start last op value) first code next) :
    (∃ p name object owner info v, last = .field p name ∧ receiver = .value object ∧
      object.isReference = true ∧
      env.table.findProperty object.name name = some (owner, info) ∧
      Yields (expr env value) first v next ∧
      code = assigning op [.dup, .getField owner.name name info.type] v.code
        (.putField owner.name name info.type)) ∨
    (∃ p i array place v middle, last = .index p i ∧ receiver = .value array ∧
      array.isArray = true ∧ Yields (expr env i) first place middle ∧
      Yields (expr env value) middle v next ∧
      code = place.code ++ assigning op [.dup2, .arrayLoad (.ofTy array.element)] v.code
        (.arrayStore (.ofTy array.element))) := by
  unfold assignLink at h
  split at h
  · rename_i p name object
    simp only [yields_ite, yields_bind, yields_property, yields_storeField, yields_refuse,
      and_false, or_false, Bool.and_eq_true] at h
    obtain ⟨⟨_, href⟩, _, _, ⟨owner, info, hp, rfl, rfl⟩, v, _, hv, rfl, rfl, _⟩ := h
    exact .inl ⟨p, name, object, owner, info, v, rfl, rfl, href, hp, hv, rfl⟩
  · rename_i p i array
    simp only [index, yields_ite, yields_bind, yields_asIndex, yields_storeElement, yields_pure,
      yields_refuse, and_false, or_false] at h
    obtain ⟨harr, _, middle, ⟨place, _, hplace, _, rfl, rfl⟩, v, _, hv, _, _, ⟨rfl, rfl, _⟩,
      rfl, rfl⟩ := h
    exact .inr ⟨p, i, array, place, v, middle, rfl, rfl, harr, hplace, hv, rfl⟩
  · exact (yields_refuse h).elim

/-- An assignment goes to a bare name, or to the last link of a chain. -/
theorem yields_assignment {a : Assignment} (h : Yields (assignment env a) first code next) :
    (∃ p name, a.target = .mk (.name p name) [] ∧
      Yields (assignName env name p a.op a.value) first code next) ∨
    (∃ head ls last start reached middle middle' tail, a.target = .mk head (ls ++ [last]) ∧
      Yields (Lowering.head env head) first start middle ∧
      Yields (links env start ls) middle reached middle' ∧
      Yields (assignLink env reached.receiver a.target.position last a.op a.value) middle' tail
        next ∧
      code = reached.code ++ tail) := by
  obtain ⟨op, ⟨head, ls⟩, value⟩ := a
  simp only [assignment, Chain.links, Chain.head] at h
  split at h
  · rename_i hnone
    rw [List.getLast?_eq_none_iff] at hnone
    subst hnone
    split at h
    · rename_i p name
      exact .inl ⟨p, name, rfl, h⟩
    · exact (yields_refuse h).elim
  · rename_i last hlast
    obtain ⟨front, rfl⟩ := List.getLast?_eq_some_iff.1 hlast
    simp only [yields_bind, yields_pure, List.dropLast_concat] at h
    obtain ⟨start, middle, hs, reached, middle', hr, tail, _, ht, rfl, rfl⟩ := h
    exact .inr ⟨head, front, last, start, reached, middle, middle', tail, rfl, hs, hr, ht, rfl⟩

theorem yields_variable {v : Variable} :
    Yields (variable_ env v) first code next ↔
      ∃ l, env.local? v.name = some l ∧
        ((v.value = none ∧ next = first ∧ code = ops [.pushDefault l.type, l.store]) ∨
         (∃ e value, v.value = some e ∧ Yields (expr env e) first value next ∧
           code = value.code ++ ops [l.store])) := by
  obtain ⟨position, type, name, value⟩ := v
  simp only [variable_, yields_bind, yields_require]
  cases value with
  | none =>
    simp only [yields_pure]
    constructor
    · rintro ⟨l, _, ⟨hl, rfl⟩, rfl, rfl⟩
      exact ⟨l, hl, .inl ⟨trivial, rfl, rfl⟩⟩
    · rintro ⟨l, hl, ⟨_, rfl, rfl⟩ | ⟨_, _, h, _⟩⟩
      · exact ⟨l, _, ⟨hl, rfl⟩, rfl, rfl⟩
      · cases h
  | some e =>
    simp only [yields_bind, yields_storeLocal]
    constructor
    · rintro ⟨l, _, ⟨hl, rfl⟩, value, _, hv, rfl, rfl, _⟩
      exact ⟨l, hl, .inr ⟨e, value, rfl, hv, by simp [assigning, oldValue, combination, ops]⟩⟩
    · rintro ⟨l, hl, ⟨h, _⟩ | ⟨_, value, he, hv, rfl⟩⟩
      · cases h
      · cases he
        exact ⟨l, _, ⟨hl, rfl⟩, value, _, hv, rfl,
          by simp [assigning, oldValue, combination, ops], fun h => absurd rfl h⟩

/-! ## Simple statements -/

theorem yields_condition {e : Expr} :
    Yields (condition env e) first code next ↔
      ∃ v, Yields (expr env e) first v next ∧ v.type = .boolean ∧ code = v.code :=
  yields_asCondition

theorem yields_test {e : Expr} {yes no : Label} :
    Yields (test env e yes no) first code next ↔
      ∃ v, Yields (expr env e) first v next ∧ v.type = .boolean ∧
        code = v.code ++ ops [.jumpNonzero yes, .goto no] := by
  simp only [test, yields_bind, yields_condition, yields_pure]
  constructor
  · rintro ⟨_, _, ⟨v, hv, hty, rfl⟩, rfl, rfl⟩
    exact ⟨v, hv, hty, rfl⟩
  · rintro ⟨v, hv, hty, rfl⟩
    exact ⟨_, _, ⟨v, hv, hty, rfl⟩, rfl, rfl⟩

theorem yields_action_call {c : Chain} :
    Yields (action env (.call c)) first code next ↔
      ∃ v, Yields (chain env c) first v next ∧
        code = if v.type.isVoid then v.code else v.code ++ ops [.pop] := by
  simp only [action, yields_bind, yields_pure]
  constructor
  · rintro ⟨v, _, hv, rfl, rfl⟩
    exact ⟨v, hv, rfl⟩
  · rintro ⟨v, hv, rfl⟩
    exact ⟨v, _, hv, rfl, rfl⟩

theorem yields_jump_value {e : Expr} :
    Yields (jump env p (.return_ (some e))) first code next ↔
      ∃ v, Yields (expr env e) first v next ∧ code = v.code ++
        ops [if v.type.isInteger then .returnInt else .returnReference] := by
  simp only [jump, yields_bind, yields_pure]
  constructor
  · rintro ⟨v, _, hv, rfl, rfl⟩
    exact ⟨v, hv, rfl⟩
  · rintro ⟨v, hv, rfl⟩
    exact ⟨v, _, hv, rfl, rfl⟩

theorem yields_jump_break :
    Yields (jump env p .break_) first code next ↔
      ∃ target, env.breakTarget? = some target ∧ next = first ∧ code = ops [.goto target] := by
  simp only [jump, yields_bind, yields_require, yields_pure]
  constructor
  · rintro ⟨target, _, ⟨ht, rfl⟩, rfl, rfl⟩
    exact ⟨target, ht, rfl, rfl⟩
  · rintro ⟨target, ht, rfl, rfl⟩
    exact ⟨target, _, ⟨ht, rfl⟩, rfl, rfl⟩

theorem yields_jump_continue :
    Yields (jump env p .continue_) first code next ↔
      ∃ target, env.continueTarget? = some target ∧ next = first ∧ code = ops [.goto target] := by
  simp only [jump, yields_bind, yields_require, yields_pure]
  constructor
  · rintro ⟨target, _, ⟨ht, rfl⟩, rfl, rfl⟩
    exact ⟨target, ht, rfl, rfl⟩
  · rintro ⟨target, ht, rfl, rfl⟩
    exact ⟨target, _, ⟨ht, rfl⟩, rfl, rfl⟩

theorem yields_selector {e : Expr} {l : Local} :
    Yields (selector env e l) first code next ↔
      ∃ v, Yields (expr env e) first v next ∧ v.type.isInteger = true ∧
        code = v.code ++ ops [l.store] := by
  simp only [selector, yields_bind, yields_ite, yields_pure, yields_refuse, and_false, or_false]
  constructor
  · rintro ⟨v, _, hv, hty, rfl, rfl⟩
    exact ⟨v, hv, hty, rfl⟩
  · rintro ⟨v, hv, hty, rfl⟩
    exact ⟨v, _, hv, hty, rfl, rfl⟩

theorem yields_caseTests_cons {l : Local} {label : Label} {c : Case} {cases : List Case} :
    Yields (caseTests l label (c :: cases)) first code next ↔
      ∃ value rest, intValue? c.label = some value ∧
        Yields (caseTests l (label + 1) cases) first rest next ∧
        code = ops [l.load, .pushInt value, .jumpInts .equal label] ++ rest := by
  simp only [caseTests, caseTest, List.zipIdx_cons, List.mapM_cons, yields_bind, yields_require,
    yields_pure]
  constructor
  · rintro ⟨_, _, ⟨_, _, ⟨value, _, ⟨hv, rfl⟩, rfl, rfl⟩, tests, _, ht, rfl, rfl⟩, rfl, rfl⟩
    exact ⟨value, tests.flatten, hv, ⟨tests, _, ht, rfl, rfl⟩, rfl⟩
  · rintro ⟨value, _, hv, ⟨tests, _, ht, rfl, rfl⟩, rfl⟩
    exact ⟨_, _, ⟨_, _, ⟨value, _, ⟨hv, rfl⟩, rfl, rfl⟩, tests, _, ht, rfl, rfl⟩, rfl, rfl⟩

theorem yields_caseTests_nil {l : Local} {label : Label} :
    Yields (caseTests l label []) first code next ↔ next = first ∧ code = [] := by
  simp only [caseTests, List.zipIdx_nil, List.mapM_nil, yields_bind, yields_pure]
  constructor
  · rintro ⟨_, _, ⟨rfl, rfl⟩, rfl, rfl⟩
    exact ⟨rfl, rfl⟩
  · rintro ⟨rfl, rfl⟩
    exact ⟨_, _, ⟨rfl, rfl⟩, rfl, rfl⟩

/-- The tests of a switch draw no label. -/
theorem yields_caseTests_next {l : Local} {label : Label} {cases : List Case}
    (h : Yields (caseTests l label cases) first code next) : next = first := by
  induction cases generalizing label code with
  | nil => exact (yields_caseTests_nil.1 h).1
  | cons c cases ih =>
    obtain ⟨_, _, _, hrest, _⟩ := yields_caseTests_cons.1 h
    exact ih hrest

/-! ## Blocks -/

attribute [local simp] statement elseBranch statements block caseBodies defaultBody

theorem yields_statements {done : List Segment} {ss : List Statement} :
    Yields (statements env done ss) first code next ↔
      ∃ rest, Yields (statements env [] ss) first rest next ∧
        code = done.reverse.flatten ++ rest := by
  induction ss generalizing done first code with
  | nil =>
    simp only [statements, yields_pure]
    constructor
    · rintro ⟨rfl, rfl⟩
      exact ⟨[], ⟨rfl, rfl⟩, by simp⟩
    · rintro ⟨_, ⟨rfl, rfl⟩, rfl⟩
      exact ⟨by simp, rfl⟩
  | cons s ss ih =>
    simp only [statements, yields_bind]
    constructor
    · rintro ⟨c, middle, hc, hs⟩
      obtain ⟨rest, hr, rfl⟩ := ih.1 hs
      exact ⟨c ++ rest, ⟨c, middle, hc, ih.2 ⟨rest, hr, by simp⟩⟩, by simp⟩
    · rintro ⟨_, ⟨c, middle, hc, hs⟩, rfl⟩
      obtain ⟨rest, hr, rfl⟩ := ih.1 hs
      exact ⟨c, middle, hc, ih.2 ⟨rest, hr, by simp⟩⟩

theorem yields_statements_nil :
    Yields (statements env [] []) first code next ↔ next = first ∧ code = [] := by
  simp [and_comm]

theorem yields_statements_cons {s : Statement} {ss : List Statement} :
    Yields (statements env [] (s :: ss)) first code next ↔
      ∃ c rest middle, Yields (statement env none s) first c middle ∧
        Yields (statements env [] ss) middle rest next ∧ code = c ++ rest := by
  simp only [statements, yields_bind]
  constructor
  · rintro ⟨c, middle, hc, hs⟩
    obtain ⟨rest, hr, rfl⟩ := yields_statements.1 hs
    exact ⟨c, rest, middle, hc, hr, by simp⟩
  · rintro ⟨c, rest, middle, hc, hr, rfl⟩
    exact ⟨c, middle, hc, yields_statements.2 ⟨rest, hr, by simp⟩⟩

theorem yields_block {b : Block} :
    Yields (block env b) first code next ↔
      Yields (statements (env.enter b.id) [] b.statements) first code next := by
  cases b
  simp [Block.id, Block.statements]

theorem yields_caseBodies {done : List Segment} {label : Label} {cases : List Case} :
    Yields (caseBodies env done label cases) first code next ↔
      ∃ rest, Yields (caseBodies env [] label cases) first rest next ∧
        code = done.reverse.flatten ++ rest := by
  induction cases generalizing done label first code with
  | nil =>
    simp only [caseBodies, yields_pure]
    constructor
    · rintro ⟨rfl, rfl⟩
      exact ⟨[], ⟨rfl, rfl⟩, by simp⟩
    · rintro ⟨_, ⟨rfl, rfl⟩, rfl⟩
      exact ⟨by simp, rfl⟩
  | cons c cs ih =>
    obtain ⟨position, labelPosition, literal, body⟩ := c
    simp only [caseBodies, yields_bind]
    constructor
    · rintro ⟨c, middle, hc, hs⟩
      obtain ⟨rest, hr, rfl⟩ := ih.1 hs
      exact ⟨.label label :: c ++ rest, ⟨c, middle, hc, ih.2 ⟨rest, hr, by simp⟩⟩, by simp⟩
    · rintro ⟨_, ⟨c, middle, hc, hs⟩, rfl⟩
      obtain ⟨rest, hr, rfl⟩ := ih.1 hs
      exact ⟨c, middle, hc, ih.2 ⟨rest, hr, by simp⟩⟩

theorem yields_caseBodies_nil {label : Label} :
    Yields (caseBodies env [] label []) first code next ↔ next = first ∧ code = [] := by
  simp [and_comm]

theorem yields_caseBodies_cons {label : Label} {c : Case} {cases : List Case} :
    Yields (caseBodies env [] label (c :: cases)) first code next ↔
      ∃ body rest middle, Yields (block env c.body) first body middle ∧
        Yields (caseBodies env [] (label + 1) cases) middle rest next ∧
        code = .label label :: body ++ rest := by
  obtain ⟨position, labelPosition, literal, b⟩ := c
  simp only [caseBodies, yields_bind, Case.body]
  constructor
  · rintro ⟨c, middle, hc, hs⟩
    obtain ⟨rest, hr, rfl⟩ := yields_caseBodies.1 hs
    exact ⟨c, rest, middle, hc, hr, by simp⟩
  · rintro ⟨c, rest, middle, hc, hr, rfl⟩
    exact ⟨c, middle, hc, yields_caseBodies.2 ⟨rest, hr, by simp⟩⟩

theorem yields_defaultBody {label : Label} {b : Block} :
    Yields (defaultBody env label (some b)) first code next ↔
      ∃ body, Yields (block env b) first body next ∧ code = .label label :: body := by
  simp only [defaultBody, yields_bind, yields_pure]
  constructor
  · rintro ⟨body, _, hb, rfl, rfl⟩
    exact ⟨body, hb, rfl⟩
  · rintro ⟨body, hb, rfl⟩
    exact ⟨body, _, hb, rfl, rfl⟩

/-! ## Control flow -/

/-- Where a conditional goes on when its condition fails. -/
def otherwiseLabel (first finish : Label) (otherwise : Option Statement) : Label :=
  if otherwise.isSome then first + 2 else finish

theorem yields_conditional {join : Option Label} {e : Expr} {body : Statement}
    {otherwise : Option Statement} :
    Yields (statement env join (.conditional p e body otherwise)) first code next ↔
      ∃ decision inner rest middle middle',
        Yields (test env e first (otherwiseLabel first (join.getD (first + 1)) otherwise))
          (first + 2 + otherwise.toList.length) decision middle ∧
        Yields (statement env none body) middle inner middle' ∧
        Yields (elseBranch env (otherwiseLabel first (join.getD (first + 1)) otherwise)
          (join.getD (first + 1)) otherwise) middle' rest next ∧
        code = decision ++ .label first :: inner ++ .op (.goto (join.getD (first + 1))) :: rest ++
          (if join.isNone then [Item.label (join.getD (first + 1))] else []) := by
  cases otherwise with
  | none =>
    simp only [statement, yields_bind, yields_freshLabel, yields_pure, Option.isSome_none,
      Bool.false_eq_true, if_false, otherwiseLabel, Option.toList_none, List.length_nil]
    constructor
    · rintro ⟨_, _, ⟨rfl, rfl⟩, _, _, ⟨rfl, rfl⟩, _, _, ⟨rfl, rfl⟩, decision, middle, hd, inner,
        middle', hi, rest, _, hr, rfl, rfl⟩
      exact ⟨decision, inner, rest, middle, middle', hd, hi, hr, rfl⟩
    · rintro ⟨decision, inner, rest, middle, middle', hd, hi, hr, rfl⟩
      exact ⟨_, _, ⟨rfl, rfl⟩, _, _, ⟨rfl, rfl⟩, _, _, ⟨rfl, rfl⟩, decision, middle, hd, inner,
        middle', hi, rest, _, hr, rfl, rfl⟩
  | some s =>
    simp only [statement, yields_bind, yields_freshLabel, yields_pure, Option.isSome_some,
      if_true, otherwiseLabel, Option.toList_some, List.length_singleton]
    constructor
    · rintro ⟨_, _, ⟨rfl, rfl⟩, _, _, ⟨rfl, rfl⟩, _, _, ⟨rfl, rfl⟩, decision, middle, hd, inner,
        middle', hi, rest, _, hr, rfl, rfl⟩
      exact ⟨decision, inner, rest, middle, middle', hd, hi, hr, rfl⟩
    · rintro ⟨decision, inner, rest, middle, middle', hd, hi, hr, rfl⟩
      exact ⟨_, _, ⟨rfl, rfl⟩, _, _, ⟨rfl, rfl⟩, _, _, ⟨rfl, rfl⟩, decision, middle, hd, inner,
        middle', hi, rest, _, hr, rfl, rfl⟩

/-- The join label is handed on along a chain of conditionals; any other branch jumps to it. -/
theorem yields_elseBranch {no finish : Label} {s : Statement} :
    Yields (elseBranch env no finish (some s)) first code next ↔
      (s.isConditional = true ∧ ∃ c, Yields (statement env (some finish) s) first c next ∧
        code = .label no :: c) ∨
      (s.isConditional = false ∧ ∃ c, Yields (statement env none s) first c next ∧
        code = .label no :: c ++ [Item.op (Instruction.goto finish)]) := by
  simp only [elseBranch, yields_ite, yields_bind, yields_pure, Bool.not_eq_true]
  constructor
  · rintro (⟨hs, c, _, hc, rfl, rfl⟩ | ⟨hs, c, _, hc, rfl, rfl⟩)
    · exact .inl ⟨hs, c, hc, rfl⟩
    · exact .inr ⟨hs, c, hc, rfl⟩
  · rintro (⟨hs, c, hc, rfl⟩ | ⟨hs, c, hc, rfl⟩)
    · exact .inl ⟨hs, c, _, hc, rfl, rfl⟩
    · exact .inr ⟨hs, c, _, hc, rfl, rfl⟩

theorem yields_whileLoop {join : Option Label} {e : Expr} {body : Statement} :
    Yields (statement env join (.whileLoop p e body)) first code next ↔
      ∃ decision inner middle,
        Yields (test env e (first + 1) (first + 2)) (first + 3) decision middle ∧
        Yields (statement (env.inside ⟨some first, first + 2⟩) none body) middle inner next ∧
        code = .label first :: decision ++ .label (first + 1) :: inner ++
          [Item.op (Instruction.goto first), Item.label (first + 2)] := by
  simp only [statement, yields_bind, yields_freshLabel, yields_pure]
  constructor
  · rintro ⟨_, _, ⟨rfl, rfl⟩, _, _, ⟨rfl, rfl⟩, _, _, ⟨rfl, rfl⟩, decision, middle, hd, inner, _,
      hi, rfl, rfl⟩
    exact ⟨decision, inner, middle, hd, hi, rfl⟩
  · rintro ⟨decision, inner, middle, hd, hi, rfl⟩
    exact ⟨_, _, ⟨rfl, rfl⟩, _, _, ⟨rfl, rfl⟩, _, _, ⟨rfl, rfl⟩, decision, middle, hd, inner, _,
      hi, rfl, rfl⟩

theorem yields_forLoop {join : Option Label} {id : NodeId} {init : Option ForInit}
    {e : Option Expr} {update : Option Action} {body : Statement} :
    Yields (statement env join (.forLoop p id init e update body)) first code next ↔
      ∃ before decision inner after top middle middle',
        Yields (forInit (env.enter id) init) first before top ∧
        Yields (forTest (env.enter id) e (top + 1) (top + 3)) (top + 4) decision middle ∧
        Yields (statement ((env.enter id).inside ⟨some (top + 2), top + 3⟩) none body) middle
          inner middle' ∧
        Yields (forUpdate (env.enter id) update) middle' after next ∧
        code = before ++ .label top :: decision ++ .label (top + 1) :: inner ++
          .label (top + 2) :: after ++ [Item.op (Instruction.goto top), Item.label (top + 3)] := by
  simp only [statement, yields_bind, yields_freshLabel, yields_pure]
  constructor
  · rintro ⟨before, top, hb, _, _, ⟨rfl, rfl⟩, _, _, ⟨rfl, rfl⟩, _, _, ⟨rfl, rfl⟩, _, _,
      ⟨rfl, rfl⟩, decision, middle, hd, inner, middle', hi, after, _, ha, rfl, rfl⟩
    exact ⟨before, decision, inner, after, _, middle, middle', hb, hd, hi, ha, rfl⟩
  · rintro ⟨before, decision, inner, after, top, middle, middle', hb, hd, hi, ha, rfl⟩
    exact ⟨before, top, hb, _, _, ⟨rfl, rfl⟩, _, _, ⟨rfl, rfl⟩, _, _, ⟨rfl, rfl⟩, _, _,
      ⟨rfl, rfl⟩, decision, middle, hd, inner, middle', hi, after, _, ha, rfl, rfl⟩

/-- The labels of the cases come first, then the label of the default body if there is one, and
last the label behind the switch. Without a default body the label behind the cases is the
last one, so in both cases that is where the tests lead when none of them succeeds. -/
theorem yields_switch {join : Option Label} {id : NodeId} {e : Expr} {cases : List Case}
    {default_ : Option Block} :
    Yields (statement env join (.switch p id e cases default_)) first code next ↔
      ∃ slot store tests bodies last label miss finish middle,
        miss = label + cases.length ∧ finish = miss + default_.toList.length ∧
        env.arena.reservedSlot id = some slot ∧
        Yields (selector env e ⟨slot, .int⟩) first store label ∧
        Yields (caseTests ⟨slot, .int⟩ label cases) (finish + 1) tests (finish + 1) ∧
        Yields (caseBodies (env.inside ⟨none, finish⟩) [] label cases) (finish + 1) bodies
          middle ∧
        Yields (defaultBody (env.inside ⟨none, finish⟩) miss default_) middle last next ∧
        code = store ++ tests ++ .op (.goto miss) :: bodies ++ last ++ [Item.label finish] := by
  have hmiss : ∀ label : Label, (if default_.isSome = true then label + cases.length
      else label + cases.length + default_.toList.length) = label + cases.length := by
    intro label
    cases default_ <;> simp
  simp only [statement, yields_bind, yields_require, yields_freshLabels, yields_freshLabel,
    yields_pure]
  constructor
  · rintro ⟨slot, _, ⟨hs, rfl⟩, store, label, he, _, _, ⟨rfl, rfl⟩, _, _, ⟨rfl, rfl⟩, _, _,
      ⟨rfl, rfl⟩, tests, _, ht, bodies, middle, hb, last, _, hl, rfl, rfl⟩
    obtain rfl := yields_caseTests_next ht
    refine ⟨slot, store, tests, bodies, last, _, _, _, middle, rfl, rfl, hs, he, ht, hb, hl, ?_⟩
    rw [hmiss]
  · rintro ⟨slot, store, tests, bodies, last, label, _, _, middle, rfl, rfl, hs, he, ht, hb, hl,
      rfl⟩
    refine ⟨slot, _, ⟨hs, rfl⟩, store, label, he, _, _, ⟨rfl, rfl⟩, _, _, ⟨rfl, rfl⟩, _, _,
      ⟨rfl, rfl⟩, tests, _, ht, bodies, middle, hb, last, _, hl, ?_, rfl⟩
    rw [hmiss]

end Javelet.Lowering
