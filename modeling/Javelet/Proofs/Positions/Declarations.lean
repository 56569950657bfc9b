import Javelet.Grammar.Declaration
import Javelet.Proofs.Positions.Statements

/-!
# Declarations and positions

From the same words at new positions the readers of declarations give the same declarations, with
the same numbers, with these positions; and so does the reader of a whole program.
-/
namespace Javelet

namespace Grammar

variable {f : Position → Position} {finish p : Position} {ts : List Token}

/-! ## Parameters and methods -/

theorem moreParameters_moves (finish : Position) (bound bound' : Nat) (done : List Parameter)
    (ts : List Token) (hlt : ts.length < bound) (hlt' : (movedTokens f ts).length < bound') :
    Moves f (List.map (Parameter.marked (.moved f))) (moreParameters finish bound done ts hlt)
      (moreParameters (f finish) bound' (done.map (Parameter.marked (.moved f)))
        (movedTokens f ts) hlt') := by
  rw [moreParameters, moreParameters]
  dsimp only
  rw [here_moved]
  refine .bind type_moves fun ty rest hrestlt _ => ?_
  refine .bind (expectName_moves _).within fun name more hmorelt _ => ?_
  dsimp only
  rcases acceptSymbol_moved f more .comma with ⟨e, e'⟩ | ⟨_, last, _, _, e, e'⟩
  · rw [e, e']
    refine .bind (expectSymbol_moves _ _).within fun _ _ _ _ => .ok ?_ rfl
    rw [List.map_reverse]
    rfl
  · rw [e, e']
    exact moreParameters_moves finish bound bound' (⟨here finish ts, ty, name⟩ :: done) last _ _
termination_by ts.length
decreasing_by omega

theorem parameters_moves : Moves f (List.map (Parameter.marked (.moved f)))
    (parameters finish ts) (parameters (f finish) (movedTokens f ts)) := by
  unfold parameters
  refine .bind (expectSymbol_moves _ _) fun _ rest hlt hlt' => ?_
  dsimp only
  rcases acceptSymbol_moved f rest .rightParen with ⟨e, e'⟩ | ⟨_, last, _, _, e, e'⟩
  · rw [e, e']
    exact moreParameters_moves finish _ _ [] rest hlt hlt'
  · rw [e, e']
    exact .ok rfl rfl

theorem methodRest_moves (header : Signature) : Moves f (numbered (Method.marked (.moved f)))
    (methodRest finish header ts)
    (methodRest (f finish) (header.marked (.moved f)) (movedTokens f ts)) := by
  unfold methodRest
  refine .bind parameters_moves fun params rest _ _ => ?_
  refine .bind_numbered (block_moves finish .none (header.id + 1) rest).within ?_
  exact fun _ _ _ _ _ => .ok_numbered rfl

theorem mainMethod_moves (access : Option Access) (id : NodeId) :
    Moves f (numbered (Method.marked (.moved f))) (mainMethod finish p access id ts)
      (mainMethod (f finish) (f p) access id (movedTokens f ts)) := by
  unfold mainMethod
  dsimp only
  rw [here_moved]
  refine .ite .fault_bind ?_
  rcases acceptKeyword_moved f ts "void" with ⟨e, e'⟩ | ⟨_, rest, _, _, e, e'⟩
  · rw [e, e']
    exact .fault
  rw [e, e']
  dsimp only
  rw [here_moved]
  rcases accept_moved f rest (fun t => t.kind == .identifier && t.text == "main") fun _ => rfl with
    ⟨e, e'⟩ | ⟨_, more, _, _, e, e'⟩
  · rw [e, e']
    exact .fault
  rw [e, e']
  dsimp only
  rw [here_moved]
  refine .bind parameters_moves.within fun params last _ _ => ?_
  have htypes : (params.map (Parameter.marked (.moved f))).map Parameter.type =
      params.map Parameter.type := by
    rw [List.map_map]
    rfl
  dsimp only
  rw [htypes]
  refine .ite .fault_bind ?_
  refine .bind_numbered (block_moves finish .none (id + 1) last).within ?_
  exact fun _ _ _ _ _ => .ok_numbered rfl

/-! ## Members -/

/-- The members read so far with other marks. -/
def Members.marked (m : Marks) (found : Members) : Members :=
  ⟨found.properties.map (Property.marked m), found.constructors.map (Method.marked m),
    found.methods.map (Method.marked m), found.main.map (Method.marked m)⟩

variable (f) in
theorem atConstructor_moved (className : String) (ts : List Token) :
    atConstructor className (movedTokens f ts) = atConstructor className ts := by
  rw [atConstructor, atConstructor, tail_moved, atSymbol_moved,
    any_head?_moved f ts (fun t => t.kind == .identifier && t.text == className) fun _ => rfl]

theorem initialValue_moves : Moves f (Option.map (Expr.marked (.moved f)))
    (initialValue finish ts) (initialValue (f finish) (movedTokens f ts)) := by
  unfold initialValue
  rcases acceptSymbol_moved f ts .assign with ⟨e, e'⟩ | ⟨_, rest, _, _, e, e'⟩
  · rw [e, e']
    exact .ok rfl rfl
  · rw [e, e']
    exact .bind expression_moves.within fun _ _ _ _ => .ok rfl rfl

variable {done : Members}

theorem typedMember_moves (access : Access) (id : NodeId) :
    Moves f (numbered (Members.marked (.moved f))) (typedMember finish p access done id ts)
      (typedMember (f finish) (f p) access (done.marked (.moved f)) id (movedTokens f ts)) := by
  unfold typedMember
  refine .bind returnType_moves fun ty rest _ _ => ?_
  refine .bind (expectName_moves _).within fun name more _ _ => ?_
  dsimp only
  rw [atSymbol_moved]
  refine .ite ?_ (.ite .refuse ?_)
  · refine .bind_numbered (methodRest_moves ⟨id, .method, access, ty, name, [], p⟩).within ?_
    exact fun _ _ _ _ _ => .ok_numbered rfl
  · refine .bind initialValue_moves.optionalWithin fun value last _ _ => ?_
    exact .bind (expectSymbol_moves _ _).within fun _ _ _ _ => .ok_numbered rfl

theorem constructorMember_moves (className : String) (access : Access) (id : NodeId) :
    Moves f (numbered (Members.marked (.moved f)))
      (constructorMember finish p className access done id ts)
      (constructorMember (f finish) (f p) className access (done.marked (.moved f)) id
        (movedTokens f ts)) := by
  unfold constructorMember
  refine .bind (expectName_moves _) fun _ rest _ _ => ?_
  refine .bind_numbered
    (methodRest_moves ⟨id, .constructor, access, .void, className, [], p⟩).within ?_
  exact fun _ _ _ _ _ => .ok_numbered rfl

theorem member_moves (className : String) (id : NodeId) :
    Moves f (numbered (Members.marked (.moved f))) (member finish className done id ts)
      (member (f finish) className (done.marked (.moved f)) id (movedTokens f ts)) := by
  obtain ⟨haccess, hrest⟩ := accessModifier_moved f ts
  unfold member
  dsimp only
  rw [here_moved]
  generalize accessModifier (movedTokens f ts) = read at haccess hrest
  obtain ⟨access, rest, hlt⟩ := read
  obtain rfl : access = (accessModifier ts).value := haccess
  obtain rfl : rest = movedTokens f (accessModifier ts).rest := hrest
  dsimp only
  rcases acceptKeyword_moved f (accessModifier ts).rest "static" with
    ⟨e, e'⟩ | ⟨_, more, _, _, e, e'⟩
  · rw [e, e', atConstructor_moved]
    refine .ite ?_ ?_
    · exact (constructorMember_moves className _ id).behind
    · exact (typedMember_moves _ id).behind
  · rw [e, e']
    refine .bind_numbered (mainMethod_moves _ id).within.behind fun main next last _ _ => ?_
    have hseen : (done.marked (.moved f)).main.isSome = done.main.isSome := Option.isSome_map
    dsimp only
    rw [hseen]
    exact .ite .fault_bind (.ok_numbered rfl)

theorem members_moves (finish : Position) (className : String) (bound bound' : Nat)
    (done : Members) (id : NodeId) (ts : List Token) (hlt : ts.length < bound)
    (hlt' : (movedTokens f ts).length < bound') : Moves f (numbered (Members.marked (.moved f)))
      (members finish className bound done id ts hlt)
      (members (f finish) className bound' (done.marked (.moved f)) id (movedTokens f ts)
        hlt') := by
  rw [members, members]
  rcases acceptSymbol_moved f ts .rightBrace with ⟨e, e'⟩ | ⟨_, rest, _, _, e, e'⟩
  · rw [e, e', isEmpty_moved]
    refine .ite .refuse (.bind_numbered (member_moves className id) ?_)
    intro found next rest hrestlt _
    exact members_moves finish className bound bound' found next rest _ _
  · rw [e, e']
    exact .ok_numbered rfl
termination_by ts.length
decreasing_by omega

/-! ## Types -/

theorem interfaceMethods_moves (finish : Position) (bound bound' : Nat) (done : List Signature)
    (id : NodeId) (ts : List Token) (hlt : ts.length < bound)
    (hlt' : (movedTokens f ts).length < bound') :
    Moves f (numbered (List.map (Signature.marked (.moved f))))
      (interfaceMethods finish bound done id ts hlt)
      (interfaceMethods (f finish) bound' (done.map (Signature.marked (.moved f))) id
        (movedTokens f ts) hlt') := by
  rw [interfaceMethods, interfaceMethods]
  dsimp only
  rw [here_moved]
  rcases acceptSymbol_moved f ts .rightBrace with ⟨e, e'⟩ | ⟨_, rest, _, _, e, e'⟩
  · rw [e, e']
    obtain ⟨haccess, hrest⟩ := accessModifier_moved f ts
    generalize accessModifier (movedTokens f ts) = read at haccess hrest
    obtain ⟨access, rest, hlt⟩ := read
    obtain rfl : access = (accessModifier ts).value := haccess
    obtain rfl : rest = movedTokens f (accessModifier ts).rest := hrest
    dsimp only
    refine .bind returnType_moves.behind fun ty rest _ _ => ?_
    refine .bind (expectName_moves _).within fun name rest _ _ => ?_
    refine .bind parameters_moves.within fun params rest _ _ => ?_
    refine .bind (expectSymbol_moves _ _).within fun _ last hlast _ => ?_
    exact interfaceMethods_moves finish bound bound' (⟨id, .method,
      (accessModifier ts).value.getD .public_, ty, name, params, here finish ts⟩ :: done) (id + 1)
      last _ _
  · rw [e, e']
    refine .ok_numbered ?_
    rw [List.map_reverse]
termination_by ts.length
decreasing_by omega

theorem supertype_moves (word what : String) : Moves f id (supertype finish word what ts)
    (supertype (f finish) word what (movedTokens f ts)) := by
  unfold supertype
  rcases acceptKeyword_moved f ts word with ⟨e, e'⟩ | ⟨_, rest, _, _, e, e'⟩
  · rw [e, e']
    exact .ok rfl rfl
  · rw [e, e']
    exact .bind (typeName_moves _).within fun _ _ _ _ => .ok rfl rfl

theorem classRest_moves (id : NodeId) : Moves f (numbered (ClassDecl.marked (.moved f)))
    (classRest finish p id ts) (classRest (f finish) (f p) id (movedTokens f ts)) := by
  unfold classRest
  refine .bind (expectName_moves _) fun name rest _ _ => ?_
  refine .bind (supertype_moves _ _).optionalWithin fun superclass rest _ _ => ?_
  refine .bind (supertype_moves _ _).optionalWithin fun interface rest _ _ => ?_
  refine .bind (expectSymbol_moves _ _).within fun _ rest hlt hlt' => ?_
  refine .bind_numbered (members_moves finish name ts.length _ ⟨[], [], [], none⟩ (id + 1) rest hlt
    hlt') fun found next last _ _ => .ok_numbered ?_
  simp only [ClassDecl.marked, List.map_reverse]
  rfl

theorem interfaceRest_moves (id : NodeId) : Moves f (numbered (InterfaceDecl.marked (.moved f)))
    (interfaceRest finish p id ts) (interfaceRest (f finish) (f p) id (movedTokens f ts)) := by
  unfold interfaceRest
  refine .bind (expectName_moves _) fun name rest _ _ => ?_
  refine .bind (expectSymbol_moves _ _).within fun _ rest hlt hlt' => ?_
  refine .bind_numbered (interfaceMethods_moves finish ts.length _ [] (id + 1) rest hlt hlt') ?_
  exact fun _ _ _ _ _ => .ok_numbered rfl

theorem typeDeclarationRest_moves (id : NodeId) : Moves f (numbered (TypeDecl.marked (.moved f)))
    (typeDeclarationRest finish p id ts)
    (typeDeclarationRest (f finish) (f p) id (movedTokens f ts)) := by
  unfold typeDeclarationRest
  rcases acceptKeyword_moved f ts "class" with ⟨e, e'⟩ | ⟨_, rest, _, _, e, e'⟩
  · rw [e, e']
    rcases acceptKeyword_moved f ts "interface" with ⟨e, e'⟩ | ⟨_, rest, _, _, e, e'⟩
    · rw [e, e']
      exact .refuse
    · rw [e, e']
      refine .bind_numbered (interfaceRest_moves id).within ?_
      exact fun _ _ _ _ _ => .ok_numbered rfl
  · rw [e, e']
    exact .bind_numbered (classRest_moves id).within fun _ _ _ _ _ => .ok_numbered rfl

theorem typeDeclaration_moves (id : NodeId) : Moves f (numbered (TypeDecl.marked (.moved f)))
    (typeDeclaration finish id ts) (typeDeclaration (f finish) id (movedTokens f ts)) := by
  unfold typeDeclaration
  dsimp only
  rw [here_moved]
  rcases acceptKeyword_moved f ts "public" with ⟨e, e'⟩ | ⟨_, rest, _, _, e, e'⟩
  · rw [e, e']
    exact typeDeclarationRest_moves id
  · rw [e, e']
    exact (typeDeclarationRest_moves id).within

/-! ## Programs -/

/-- The second token list spells the program of the first one with new positions, or both are
refused with what is told in the same way at its new position. -/
inductive MovesProgram (f : Position → Position) : Except (Located Fault) Program →
    Except (Located Fault) Program → Prop
  | ok {p p' : Program} : p' = p.marked (.moved f) → MovesProgram f (.ok p) (.ok p')
  | error {l l' : Located Fault} : l'.diagnostic = l.diagnostic.moved f →
      MovesProgram f (.error l) (.error l')

theorem declarations_moves (finish : Position) (done : List TypeDecl) (id : NodeId)
    (ts : List Token) : MovesProgram f ((declarations finish done id ts).map Prod.fst)
      ((declarations (f finish) (done.map (TypeDecl.marked (.moved f))) id
        (movedTokens f ts)).map Prod.fst) := by
  rw [declarations, declarations, isEmpty_moved]
  split
  · rw [← List.map_reverse]
    exact .ok rfl
  · have hdecl : Moves f (numbered (TypeDecl.marked (.moved f))) (typeDeclaration finish id ts)
      (typeDeclaration (f finish) id (movedTokens f ts)) := typeDeclaration_moves id
    generalize typeDeclaration finish id ts = o,
      typeDeclaration (f finish) id (movedTokens f ts) = o' at hdecl ⊢
    cases hdecl with
    | error htold => exact .error htold
    | @ok r r' hvalue hrest =>
      obtain ⟨⟨decl, next⟩, rest, hlt⟩ := r
      obtain ⟨value, rest', hlt'⟩ := r'
      cases hvalue
      cases hrest
      exact declarations_moves finish (decl :: done) next rest
termination_by ts.length
decreasing_by assumption

variable (f) in
/-- The end of a token list moves along with its last token. -/
theorem finishOf_moved (hts : ts ≠ []) : finishOf (movedTokens f ts) = f (finishOf ts) := by
  rw [finishOf, finishOf, movedTokens, List.getLast?_map, List.getLast?_eq_some_getLast hts]
  rfl

end Grammar

/-- A program is read from the same words alike wherever they stand. -/
theorem parse_moves (f : Position → Position) (ts : List Token) :
    Grammar.MovesProgram f (parse ts) (parse (movedTokens f ts)) := by
  have hparse : ∀ us, parse us =
      (Grammar.declarations (Grammar.finishOf us) [] 0 us).map Prod.fst := by
    intro us
    unfold parse
    cases Grammar.declarations (Grammar.finishOf us) [] 0 us <;> rfl
  cases ts with
  | nil =>
    rw [hparse, movedTokens, List.map_nil, hparse, Grammar.declarations]
    exact .ok rfl
  | cons t ts =>
    rw [hparse, hparse, Grammar.finishOf_moved f (List.cons_ne_nil t ts)]
    exact Grammar.declarations_moves _ [] 0 _

/-! ## The same words -/

/-- What is told of two faults is the same, but for their places. -/
structure Diagnostic.SameText (d d' : Diagnostic) : Prop where
  code : d'.code = d.code
  message : d'.message = d.message
  hint : d'.hint = d.hint

theorem sameText_of_moved {f : Position → Position} {d d' : Diagnostic}
    (h : d'.moved f = d.moved f) : d.SameText d' := by
  injection h with hcode hmessage _ hhint
  exact ⟨hcode, hmessage, hhint⟩

/-- Tokens with the same words, one after the other. -/
def SameWords (ts ts' : List Token) : Prop :=
  movedTokens (fun _ => .start) ts' = movedTokens (fun _ => .start) ts

/-- Both token lists spell the same program but for positions, or both are refused with faults
that are told alike. -/
inductive SameProgram : Except (Located Grammar.Fault) Program →
    Except (Located Grammar.Fault) Program → Prop
  | ok {p p' : Program} : p'.marked .unplaced = p.marked .unplaced → SameProgram (.ok p) (.ok p')
  | error {l l' : Located Grammar.Fault} : l.diagnostic.SameText l'.diagnostic →
      SameProgram (.error l) (.error l')

/-- The same words spell the same program, wherever they stand. -/
theorem parse_sameProgram {ts ts' : List Token} (h : SameWords ts ts') :
    SameProgram (parse ts) (parse ts') := by
  have hmoves := parse_moves (fun _ => .start) ts
  have hmoves' := parse_moves (fun _ => .start) ts'
  rw [show movedTokens _ ts' = _ from h] at hmoves'
  generalize parse ts = o, parse ts' = o', parse (movedTokens _ ts) = u at hmoves hmoves' ⊢
  cases hmoves with
  | ok hp =>
    cases hmoves' with
    | ok hp' => exact .ok (hp'.symm.trans hp)
  | error htold =>
    cases hmoves' with
    | error htold' => exact .error (sameText_of_moved (htold'.symm.trans htold))

end Javelet
