import Javelet.Grammar.Declaration
import Javelet.Proofs.Grammar.Expressions

/-!
# The kinds of members

The members of a class are read by their kind: a constructor has the name of the class, and only the
entry point, which has one parameter, has no receiver.
-/
namespace Javelet

/-- The members of a class stand in the list of their kind. -/
structure MembersFit (className : String) (constructors methods : List Method)
    (main : Option Method) : Prop where
  constructors : ∀ m ∈ constructors,
    m.signature.kind = .constructor ∧ m.signature.name = className
  methods : ∀ m ∈ methods, m.signature.kind = .method
  main : ∀ m ∈ main, m.signature.kind = .main ∧ m.signature.name = "main" ∧
    m.signature.paramTypes = [.arrayOf .string] ∧ m.signature.returns = .void

def ClassDecl.MembersFit (d : ClassDecl) : Prop :=
  Javelet.MembersFit d.name d.constructors d.methods d.main

/-- The members of a type have the kinds that such a type can have. -/
def TypeDecl.MembersFit : TypeDecl → Prop
  | class_ d => d.MembersFit
  | interface d => ∀ s ∈ d.methods, s.kind = .method

/-- All members but the entry point have a receiver. -/
structure ReceiversFit (members : List Method) (main : Option Method) : Prop where
  members : ∀ m ∈ members, m.signature.isStatic = false
  main : ∀ m ∈ main, m.signature.isStatic = true ∧ m.signature.params.length = 1

def ClassDecl.ReceiversFit (d : ClassDecl) : Prop :=
  Javelet.ReceiversFit (d.constructors ++ d.methods) d.main

theorem ClassDecl.MembersFit.receivers {d : ClassDecl} (h : d.MembersFit) : d.ReceiversFit := by
  refine ⟨?_, ?_⟩
  · intro m hm
    rw [Signature.isStatic]
    rcases List.mem_append.1 hm with hm | hm
    · rw [(h.constructors m hm).1]
      rfl
    · rw [h.methods m hm]
      rfl
  · intro m hm
    obtain ⟨hkind, -, hparams, -⟩ := h.main m hm
    refine ⟨?_, ?_⟩
    · rw [Signature.isStatic, hkind]
      rfl
    · have hlength := congrArg List.length hparams
      simpa [Signature.paramTypes] using hlength

namespace Grammar

variable {finish : Position} {ts : List Token}

theorem Gives.any {α : Type} {bound : Nat} {o : Outcome α bound} : Gives o fun _ _ => True :=
  fun _ _ => trivial

theorem methodRest_header {header : Signature} :
    Gives (methodRest finish header ts) fun r _ =>
      r.1.signature.kind = header.kind ∧ r.1.signature.name = header.name := by
  unfold methodRest
  refine .bind .any fun ps rest h _ => ?_
  refine .bind .any ?_
  rintro ⟨body, next⟩ rest' h' _
  exact .ok ⟨rfl, rfl⟩

theorem mainMethod_header {p : Position} {access : Option Access} {id : NodeId} :
    Gives (mainMethod finish p access id ts) fun r _ =>
      r.1.signature.kind = .main ∧ r.1.signature.name = "main" ∧
        r.1.signature.paramTypes = [.arrayOf .string] ∧ r.1.signature.returns = .void := by
  unfold mainMethod
  dsimp only
  split
  · exact .error_bind
  · split
    · exact .error
    · split
      · exact .error
      · refine .bind .any fun ps rest h _ => ?_
        dsimp only
        split
        · exact .error_bind
        · rename_i hps
          refine .bind .any ?_
          rintro ⟨body, next⟩ rest' h' _
          exact .ok ⟨rfl, rfl, Decidable.not_not.1 hps, rfl⟩

/-- What a reader of members gives. -/
def Members.Fit (className : String) (m : Members) : Prop :=
  MembersFit className m.constructors m.methods m.main

theorem typedMember_fit {p : Position} {className : String} {access : Access} {done : Members}
    {id : NodeId} (hdone : done.Fit className) :
    Gives (typedMember finish p access done id ts) fun r _ => r.1.Fit className := by
  unfold typedMember
  refine .bind .any fun t rest h _ => ?_
  refine .bind .any fun name rest1 h1 _ => ?_
  dsimp only
  split
  · refine .bind methodRest_header.within ?_
    rintro ⟨m, middle⟩ rest2 h2 hheader
    exact .ok ⟨hdone.constructors, List.forall_mem_cons.2 ⟨hheader.1, hdone.methods⟩, hdone.main⟩
  · split
    · exact .error
    · refine .bind .any fun value rest2 h2 _ => ?_
      refine .bind .any fun _ rest3 h3 _ => ?_
      exact .ok hdone

theorem constructorMember_fit {p : Position} {className : String} {access : Access}
    {done : Members} {id : NodeId} (hdone : done.Fit className) :
    Gives (constructorMember finish p className access done id ts)
      fun r _ => r.1.Fit className := by
  unfold constructorMember
  refine .bind .any fun _ rest h _ => ?_
  refine .bind methodRest_header.within ?_
  rintro ⟨m, middle⟩ rest1 h1 hheader
  exact .ok ⟨List.forall_mem_cons.2 ⟨hheader, hdone.constructors⟩, hdone.methods, hdone.main⟩

theorem member_fit {className : String} {done : Members} {id : NodeId}
    (hdone : done.Fit className) :
    Gives (member finish className done id ts) fun r _ => r.1.Fit className := by
  unfold member
  dsimp only
  split
  · refine .bind mainMethod_header.within.behind ?_
    rintro ⟨m, middle⟩ rest1 h1 hmain
    dsimp only
    split
    · exact .error_bind
    · refine .ok ⟨hdone.constructors, hdone.methods, ?_⟩
      rintro m' ⟨⟩
      exact hmain
  · split
    · exact (constructorMember_fit hdone).behind
    · exact (typedMember_fit hdone).behind

theorem members_fit (finish : Position) (className : String) (bound : Nat) (done : Members)
    (id : NodeId) (ts : List Token) (h : ts.length < bound) (hdone : done.Fit className) :
    Gives (members finish className bound done id ts h) fun r _ => r.1.Fit className := by
  rw [members]
  split
  · exact .ok hdone
  · split
    · exact .error
    · refine .bind (member_fit hdone) ?_
      rintro ⟨next, middle⟩ rest h' hnext
      exact members_fit finish className bound next middle rest (shorter_bound h' h) hnext
termination_by ts.length
decreasing_by omega

theorem classRest_fit {p : Position} {id : NodeId} :
    Gives (classRest finish p id ts) fun r _ => r.1.MembersFit := by
  unfold classRest
  refine .bind .any fun name rest h _ => ?_
  refine .bind .any fun superclass rest1 h1 _ => ?_
  refine .bind .any fun interface rest2 h2 _ => ?_
  refine .bind .any fun _ rest3 h3 _ => ?_
  refine .bind (members_fit finish name ts.length ⟨[], [], [], none⟩ (id + 1) rest3 h3
    ⟨List.forall_mem_nil _, List.forall_mem_nil _, by simp⟩) ?_
  rintro ⟨found, next⟩ rest4 h4 hfound
  refine .ok ⟨?_, ?_, hfound.main⟩
  · exact fun m hm => hfound.constructors m (List.mem_reverse.1 hm)
  · exact fun m hm => hfound.methods m (List.mem_reverse.1 hm)

theorem interfaceMethods_fit (finish : Position) (bound : Nat) (done : List Signature) (id : NodeId)
    (ts : List Token) (h : ts.length < bound) (hdone : ∀ s ∈ done, s.kind = .method) :
    Gives (interfaceMethods finish bound done id ts h) fun r _ => ∀ s ∈ r.1, s.kind = .method := by
  rw [interfaceMethods]
  split
  · exact .ok fun s hs => hdone s (List.mem_reverse.1 hs)
  · dsimp only
    refine .bind .any fun t rest h' _ => ?_
    refine .bind .any fun name rest1 h1 _ => ?_
    refine .bind .any fun ps rest2 h2 _ => ?_
    refine .bind .any fun _ rest3 h3 _ => ?_
    exact interfaceMethods_fit finish bound _ (id + 1) rest3 _
      (List.forall_mem_cons.2 ⟨rfl, hdone⟩)
termination_by ts.length
decreasing_by omega

theorem interfaceRest_fit {p : Position} {id : NodeId} :
    Gives (interfaceRest finish p id ts) fun r _ => ∀ s ∈ r.1.methods, s.kind = .method := by
  unfold interfaceRest
  refine .bind .any fun name rest h _ => ?_
  refine .bind .any fun _ rest1 h1 _ => ?_
  refine .bind (interfaceMethods_fit finish ts.length [] (id + 1) rest1 h1
    (List.forall_mem_nil _)) ?_
  rintro ⟨methods, next⟩ rest2 h2 hmethods
  exact .ok hmethods

theorem typeDeclarationRest_fit {p : Position} {id : NodeId} :
    Gives (typeDeclarationRest finish p id ts) fun r _ => r.1.MembersFit := by
  unfold typeDeclarationRest
  split
  · refine .bind classRest_fit.within ?_
    rintro ⟨d, next⟩ _ _ hd
    exact .ok hd
  · split
    · refine .bind interfaceRest_fit.within ?_
      rintro ⟨d, next⟩ _ _ hd
      exact .ok hd
    · exact .error

theorem typeDeclaration_fit {id : NodeId} :
    Gives (typeDeclaration finish id ts) fun r _ => r.1.MembersFit := by
  unfold typeDeclaration
  dsimp only
  split
  · exact typeDeclarationRest_fit.within
  · exact typeDeclarationRest_fit

theorem declarations_fit {ts : List Token} {done : List TypeDecl} {id next : NodeId}
    {program : Program} (hdone : ∀ d ∈ done, d.MembersFit)
    (h : declarations finish done id ts = .ok (program, next)) :
    ∀ d ∈ program.declarations, d.MembersFit := by
  rw [declarations] at h
  split at h
  · cases h
    exact fun d hd => hdone d (List.mem_reverse.1 hd)
  · cases hdecl : typeDeclaration finish id ts with
    | error fault =>
      rw [hdecl] at h
      cases h
    | ok p =>
      rw [hdecl] at h
      have hread := typeDeclaration_fit p hdecl
      have hlt := p.shorter
      exact declarations_fit (List.forall_mem_cons.2 ⟨hread, hdone⟩) h
termination_by ts.length

end Grammar

/-- In a program that is read from tokens, every member stands in the list of its kind. -/
theorem parse_membersFit {ts : List Token} {program : Program} (h : parse ts = .ok program) :
    ∀ d ∈ program.declarations, d.MembersFit := by
  unfold parse at h
  cases hd : Grammar.declarations (Grammar.finishOf ts) [] 0 ts with
  | error fault =>
    rw [hd] at h
    cases h
  | ok r =>
    rw [hd] at h
    cases h
    exact Grammar.declarations_fit (List.forall_mem_nil _) hd

/-- All members but the entry points have a receiver. -/
theorem parse_receivers {ts : List Token} {program : Program} (h : parse ts = .ok program) :
    ∀ d, .class_ d ∈ program.declarations → d.ReceiversFit := by
  intro d hd
  have hfit : d.MembersFit := parse_membersFit h _ hd
  exact hfit.receivers

end Javelet
