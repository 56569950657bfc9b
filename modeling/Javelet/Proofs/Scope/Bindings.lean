import Javelet.Proofs.Scope.Walk
import Javelet.Proofs.Syntax.Places
import Mathlib.Data.Finset.Card

/-!
# The declarations of a scope

The declarations of parameters and variables are sorted here into scopes as the text has them,
without a walk over the program: a method body shares its scope with the parameters, the body of a
for loop the scope of the variable that the loop declares, and a declaration without braces belongs
to the scope around it. Among the declarations of a scope, those are repeated whose name stands
before them.
-/
namespace Javelet

open Scope (LocalKind Fault)

/-! ## Declarations and their scopes -/

/-- A parameter or a local variable as it is declared. -/
structure Binding where
  kind : LocalKind
  name : String
  position : Position
  deriving DecidableEq, Repr

namespace Binding

/-- The fault of a declaration whose name is taken. -/
def clash (d : Binding) : Located Fault := ⟨d.kind.clash d.name, d.position⟩

/-- The number of different names. -/
def distinct (ds : List Binding) : Nat := (ds.map name).toFinset.card

/-- The declarations of names that are taken already, by `seen` or by a declaration before. -/
def repeated (seen : List String) : List Binding → List Binding
  | [] => []
  | d :: ds => (if d.name ∈ seen then [d] else []) ++ repeated (seen ++ [d.name]) ds

theorem repeated_append (seen : List String) (ds ds' : List Binding) :
    repeated seen (ds ++ ds') = repeated seen ds ++ repeated (seen ++ ds.map name) ds' := by
  induction ds generalizing seen with
  | nil => simp [repeated]
  | cons d ds ih => simp [repeated, ih]

/-- Every declaration is the first of its name or repeats one. -/
theorem length_repeated (seen : List String) (ds : List Binding) :
    (repeated seen ds).length + (seen ++ ds.map name).toFinset.card =
      ds.length + seen.toFinset.card := by
  induction ds generalizing seen with
  | nil => simp [repeated]
  | cons d ds ih =>
    have hrest := ih (seen ++ [d.name])
    simp only [List.append_assoc, List.singleton_append] at hrest
    simp only [repeated, List.length_append, List.map_cons, List.length_cons]
    by_cases hd : d.name ∈ seen
    · have hcard : (seen ++ [d.name]).toFinset = seen.toFinset := by
        ext n
        simp only [List.mem_toFinset, List.mem_append, List.mem_singleton]
        exact or_iff_left_of_imp fun h => h ▸ hd
      rw [hcard] at hrest
      rw [if_pos hd, List.length_singleton]
      omega
    · have hcard : (seen ++ [d.name]).toFinset.card = seen.toFinset.card + 1 := by
        have hinsert : (seen ++ [d.name]).toFinset = insert d.name seen.toFinset := by
          ext n
          simp
        rw [hinsert, Finset.card_insert_of_notMem (by simpa using hd)]
      rw [if_neg hd, List.length_nil]
      omega

theorem length_repeated_nil (ds : List Binding) :
    (repeated [] ds).length = ds.length - distinct ds := by
  have h := length_repeated [] ds
  rw [List.nil_append, List.toFinset_nil, Finset.card_empty] at h
  rw [distinct]
  omega

/-- A repeated declaration stands behind one of its name. -/
theorem behind_of_mem_repeated {seen : List String} {ds : List Binding} {d : Binding}
    (h : d ∈ repeated seen ds) :
    ∃ before after, ds = before ++ d :: after ∧ d.name ∈ seen ++ before.map name := by
  induction ds generalizing seen with
  | nil => cases h
  | cons first ds ih =>
    rw [repeated, List.mem_append] at h
    rcases h with h | h
    · split at h
      · rename_i hfirst
        rw [List.mem_singleton.1 h]
        exact ⟨[], ds, rfl, List.mem_append_left _ hfirst⟩
      · cases h
    · obtain ⟨before, after, rfl, hname⟩ := ih h
      refine ⟨first :: before, after, rfl, ?_⟩
      rwa [List.append_assoc] at hname

end Binding

def Parameter.declared (p : Parameter) : Binding := ⟨.parameter, p.name, p.position⟩

def Variable.declared (v : Variable) : Binding := ⟨.variable, v.name, v.position⟩

mutual

/-- What a statement declares in the scope in which it stands. -/
def Statement.declared : Statement → List Binding
  | .block _ => []
  | .conditional _ _ body otherwise => body.declared ++ otherwiseDeclared otherwise
  | .whileLoop _ _ body => body.declared
  | .forLoop _ _ (some (.declaration _)) _ _ _ => []
  | .forLoop _ _ _ _ _ body => body.declared
  | .switch _ _ _ _ _ => []
  | .jump _ _ => []
  | .action _ => []
  | .declaration v => [v.declared]

def otherwiseDeclared : Option Statement → List Binding
  | none => []
  | some s => s.declared

end

mutual

/-- The scopes that a statement opens, each with what is declared in it. A variable of a for loop
and the body of the loop are in one scope, also if the body is in braces. -/
def Statement.scopes : Statement → List (List Binding)
  | .block b => b.scopes
  | .conditional _ _ body otherwise => body.scopes ++ otherwiseScopes otherwise
  | .whileLoop _ _ body => body.scopes
  | .forLoop _ _ (some (.declaration v)) _ _ (.block (.mk _ _ ss)) =>
    (v.declared :: ss.flatMap Statement.declared) :: statementScopes ss
  | .forLoop _ _ (some (.declaration v)) _ _ body => (v.declared :: body.declared) :: body.scopes
  | .forLoop _ _ _ _ _ body => body.scopes
  | .switch _ _ _ cases default_ => caseScopes cases ++ defaultScopes default_
  | .jump _ _ => []
  | .action _ => []
  | .declaration _ => []

def otherwiseScopes : Option Statement → List (List Binding)
  | none => []
  | some s => s.scopes

def statementScopes : List Statement → List (List Binding)
  | [] => []
  | s :: rest => s.scopes ++ statementScopes rest

def Block.scopes : Block → List (List Binding)
  | .mk _ _ ss => ss.flatMap Statement.declared :: statementScopes ss

def caseScopes : List Case → List (List Binding)
  | [] => []
  | .mk _ _ _ body :: rest => body.scopes ++ caseScopes rest

def defaultScopes : Option Block → List (List Binding)
  | none => []
  | some b => b.scopes

end

/-- The scope of a method, with the parameters in front, and the scopes in its body. -/
def Method.scopes (m : Method) : List (List Binding) :=
  (m.signature.params.map Parameter.declared ++
    m.body.statements.flatMap Statement.declared) :: statementScopes m.body.statements

def TypeDecl.scopes : TypeDecl → List (List Binding)
  | class_ d => d.members.flatMap Method.scopes
  | interface d => d.methods.map fun header => header.params.map Parameter.declared

/-- All scopes of a program in which parameters or variables can be declared. -/
def Program.scopes (p : Program) : List (List Binding) := p.declarations.flatMap TypeDecl.scopes

/-- The statements that stand in the scope of a for loop with a declaration. -/
def Statement.unbraced : Statement → List Statement
  | .block b => b.statements
  | s => [s]

theorem Statement.scopes_forLoop (p : Position) (id : NodeId) (v : Variable) (e : Option Expr)
    (update : Option Action) (body : Statement) :
    (Statement.forLoop p id (some (.declaration v)) e update body).scopes =
      (v.declared :: body.unbraced.flatMap Statement.declared) ::
        statementScopes body.unbraced := by
  cases body with
  | block b =>
    obtain ⟨id, p, ss⟩ := b
    rw [Statement.scopes]
    rfl
  | _ => simp [Statement.scopes, Statement.unbraced, statementScopes]

theorem Statement.WellNamed.unbraced {body : Statement} (h : body.WellNamed) :
    ∀ s ∈ body.unbraced, s.WellNamed := by
  cases h with
  | block h => exact h
  | _ => exact List.forall_mem_singleton.2 (by constructor <;> assumption)

theorem Statement.nodes_unbraced (body : Statement) :
    body.nodes = body.blockId?.toList ++ statementNodes body.unbraced := by
  cases body with
  | block b =>
    rw [Statement.nodes, Block.nodes_eq]
    rfl
  | _ => simp [Statement.unbraced, Statement.blockId?, statementNodes]

end Javelet
