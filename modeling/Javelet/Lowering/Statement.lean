import Javelet.Lowering.Assignment

/-!
# Lowering of statements

The code of a statement starts and ends with nothing of its own on the stack. Conditions are
tested by `ifne`. In a chain of conditionals every branch jumps to the end of the outermost
one, which places the label.
-/
namespace Javelet.Lowering

open Assembly

/-- Lower an action; the result of a call is dropped. -/
def action (env : Env) : Action → Lower Segment
  | .assignment a => assignment env a
  | .call c => do
    let v ← chain env c
    return if v.type.isVoid then v.code else v.code ++ ops [.pop]

/-- Lower a jump. -/
def jump (env : Env) (p : Position) : Jump → Lower Segment
  | .return_ none => pure (ops [.returnVoid])
  | .return_ (some value) => do
    let v ← expr env value
    return v.code ++ ops [if v.type.isInteger then .returnInt else .returnReference]
  | .break_ => do
    let target ← require env.breakTarget? .strayBreak p
    return ops [.goto target]
  | .continue_ => do
    let target ← require env.continueTarget? .strayContinue p
    return ops [.goto target]

/-- Go on at one label if a condition holds and at another one if not. -/
def test (env : Env) (e : Expr) (yes no : Label) : Lower Segment := do
  let code ← condition env e
  return code ++ ops [.jumpNonzero yes, .goto no]

/-- Lower the first part of a for loop. -/
def forInit (env : Env) : Option ForInit → Lower Segment
  | some (.declaration v) => variable_ env v
  | some (.assignment a) => assignment env a
  | none => pure []

/-- Test the condition of a for loop. A loop without one goes on. -/
def forTest (env : Env) (e : Option Expr) (yes no : Label) : Lower Segment :=
  match e with
  | some e => test env e yes no
  | none => pure []

/-- Lower the update of a for loop. -/
def forUpdate (env : Env) : Option Action → Lower Segment
  | some a => action env a
  | none => pure []

/-- Lower the selector of a switch into its hidden slot. -/
def selector (env : Env) (e : Expr) (l : Local) : Lower Segment := do
  let v ← expr env e
  if v.type.isInteger then return v.code ++ ops [l.store]
  else refuse (.selectorNotInt v.type) e.position

/-- Jump to a label if the selector in a slot is a case label. -/
def caseTest (l : Local) (c : Case) (target : Label) : Lower Segment := do
  let value ← require (intValue? c.label) .badCaseLabel c.position
  return ops [l.load, .pushInt value, .jumpInts .equal target]

/-- Test the case labels in order; the bodies have consecutive labels. -/
def caseTests (l : Local) (first : Label) (cases : List Case) : Lower Segment := do
  let tests ← (cases.zipIdx first).mapM fun (c, target) => caseTest l c target
  return tests.flatten

mutual

/-- Lower a statement. `join` is the label at which the chain of conditionals goes on of which
the statement is a later part. -/
def statement (env : Env) (join : Option Label) : Statement → Lower Segment
  | .block b => block env b
  | .conditional _ e body otherwise => do
    let yes ← freshLabel
    let no ← freshLabel
    let finish := join.getD no
    let next ← if otherwise.isSome then freshLabel else pure finish
    let decision ← test env e yes next
    let inner ← statement env none body
    let rest ← elseBranch env next finish otherwise
    return decision ++ .label yes :: inner ++ .op (.goto finish) :: rest ++
      (if join.isNone then [.label finish] else [])
  | .whileLoop _ e body => do
    let top ← freshLabel
    let start ← freshLabel
    let bottom ← freshLabel
    let decision ← test env e start bottom
    let inner ← statement (env.inside ⟨some top, bottom⟩) none body
    return .label top :: decision ++ .label start :: inner ++ [.op (.goto top), .label bottom]
  | .forLoop _ id init e update body => do
    let env := env.enter id
    let before ← forInit env init
    let top ← freshLabel
    let start ← freshLabel
    let step ← freshLabel
    let bottom ← freshLabel
    let decision ← forTest env e start bottom
    let inner ← statement (env.inside ⟨some step, bottom⟩) none body
    let after ← forUpdate env update
    return before ++ .label top :: decision ++ .label start :: inner ++ .label step :: after ++
      [.op (.goto top), .label bottom]
  | .switch p id e cases default_ => do
    let slot ← require (env.arena.reservedSlot id) .noSelectorSlot p
    let l : Local := ⟨slot, .int⟩
    let store ← selector env e l
    let first ← freshLabels cases.length
    let otherwise ← freshLabels default_.toList.length
    let finish ← freshLabel
    let tests ← caseTests l first cases
    let env := env.inside ⟨none, finish⟩
    let bodies ← caseBodies env [] first cases
    let last ← defaultBody env otherwise default_
    return store ++ tests ++
      .op (.goto (if default_.isSome then otherwise else finish)) :: bodies ++ last ++
      [.label finish]
  | .jump p j => jump env p j
  | .action a => action env a
  | .declaration v => variable_ env v

/-- Lower the other branch of a conditional. -/
def elseBranch (env : Env) (next finish : Label) : Option Statement → Lower Segment
  | none => pure []
  | some s => do
    if s.isConditional then
      let code ← statement env (some finish) s
      return .label next :: code
    else
      let code ← statement env none s
      return .label next :: code ++ [.op (.goto finish)]

/-- Lower statements in order; `done` holds the code so far, latest first. -/
def statements (env : Env) (done : List Segment) : List Statement → Lower Segment
  | [] => pure done.reverse.flatten
  | s :: rest => do
    let code ← statement env none s
    statements env (code :: done) rest

/-- Lower a block in its scope. -/
def block (env : Env) : Block → Lower Segment
  | .mk id _ body => statements (env.enter id) [] body

/-- Lower the bodies of cases, each behind its label; they fall through into each other. -/
def caseBodies (env : Env) (done : List Segment) (label : Label) : List Case → Lower Segment
  | [] => pure done.reverse.flatten
  | .mk _ _ _ body :: rest => do
    let code ← block env body
    caseBodies env ((.label label :: code) :: done) (label + 1) rest

def defaultBody (env : Env) (label : Label) : Option Block → Lower Segment
  | none => pure []
  | some body => do
    let code ← block env body
    return .label label :: code

end

end Javelet.Lowering
