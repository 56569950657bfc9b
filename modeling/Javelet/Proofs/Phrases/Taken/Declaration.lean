import Javelet.Proofs.Phrases.Declaration
import Javelet.Proofs.Phrases.Taken.Statement

/-!
# Readers of declarations take phrases

What a reader of declarations takes off the front of a token list is a phrase of the declaration it
gives, so that a token list which is read as a program spells it.
-/
namespace Javelet.Grammar

variable {ts : List Token} {finish : Position}

/-! ## Headers -/

theorem returnType_taken : Gives (returnType finish ts) (Taken SpellsReturnType ts) := by
  unfold returnType
  split
  · rename_i word rest h hp
    obtain ⟨hts, hword⟩ := acceptKeyword_eq_some hp
    exact .ok ⟨[word], hts, .void hword⟩
  · exact type_taken.imp fun _ _ h => h.imp fun _ h => .type h

theorem spellsAccess_of_ofKeyword? {t : Token} {access : Access} (hkind : t.kind = .keyword)
    (h : Access.ofKeyword? t.text = some access) : SpellsAccess [t] access := by
  have hword : ∀ word, t.text = word → t.isKeyword word = true := by
    intro word htext
    simp [Token.isKeyword, hkind, htext]
  unfold Access.ofKeyword? at h
  split at h
  · cases h
    exact .public_ (hword _ ‹_›)
  · split at h
    · cases h
      exact .protected_ (hword _ ‹_›)
    · split at h
      · cases h
        exact .private_ (hword _ ‹_›)
      · cases h

theorem accessModifier_taken (ts : List Token) :
    Taken SpellsAccess ts ((accessModifier ts).value.getD .public_) (accessModifier ts).rest := by
  unfold accessModifier
  split
  · rename_i p hp
    obtain ⟨hts, htest⟩ := accept_eq_some hp
    simp only [Bool.and_eq_true, beq_iff_eq, Option.isSome_iff_exists] at htest
    obtain ⟨hkind, access, haccess⟩ := htest
    refine ⟨[p.value], hts, ?_⟩
    simpa [Parsed.optional, haccess] using spellsAccess_of_ofKeyword? hkind haccess
  · exact ⟨[], rfl, .unmarked⟩

theorem moreParameters_taken (finish : Position) (bound : Nat) (done : List Parameter)
    (ts : List Token) (h : ts.length < bound) :
    Gives (moreParameters finish bound done ts h) fun params rest =>
      ∃ used closing new, ts = used ++ closing :: rest ∧ SpellsParameterSeries used new ∧
        closing.kind = .symbol .rightParen ∧
        params.map (Parameter.marked .none) = done.reverse.map (Parameter.marked .none) ++ new := by
  rw [moreParameters]
  refine .bind type_taken fun type rest h' htype => ?_
  obtain ⟨us, hts, htype⟩ := htype
  refine .bind expectName_taken.within fun name rest' h'' hname => ?_
  obtain ⟨t, hrest, ht, rfl⟩ := hname
  have hparameter := SpellsParameter.mk htype ht
  dsimp only
  split
  · rename_i comma more h₃ hp
    obtain ⟨q, hq, he⟩ := Option.map_eq_some_iff.1 hp
    cases he
    obtain ⟨hmore, hcomma⟩ := acceptSymbol_eq_some (t := q.value) (h := q.shorter) hq
    refine (moreParameters_taken finish bound _ _ _).imp ?_
    rintro params last ⟨used, closing, new, hused, hnew, hclose, hparams⟩
    refine ⟨us ++ [t] ++ q.value :: used, closing, ⟨.start, type, t.text⟩ :: new, ?_, ?_, hclose, ?_⟩
    · simp [hts, hrest, hmore, hused]
    · exact .more hparameter hcomma hnew
    · simpa using hparams
  · refine .bind expectSymbol_taken.within fun closing last _ hclose => ?_
    obtain ⟨rfl, hclose⟩ := hclose
    exact .ok ⟨us ++ [t], closing, [⟨.start, type, t.text⟩], by simp [hts, hrest],
      .one hparameter, hclose, by simp⟩
termination_by ts.length
decreasing_by omega

theorem parameters_taken : Gives (parameters finish ts) fun params =>
    Taken SpellsParameters ts (params.map (Parameter.marked .none)) := by
  unfold parameters
  refine .bind expectSymbol_taken fun opening rest h hopen => ?_
  dsimp only
  split
  · rename_i closing rest' h' hp
    obtain ⟨hrest, hclose⟩ := acceptSymbol_eq_some hp
    exact .ok ⟨[opening, closing], by simp [hopen.1, hrest], .none hopen.2 hclose⟩
  · refine (moreParameters_taken finish ts.length [] rest h).imp ?_
    rintro params rest' ⟨used, closing, new, rfl, hused, hclose, hparams⟩
    refine ⟨opening :: (used ++ [closing]), by simp [hopen.1], ?_⟩
    rw [hparams]
    exact .some hopen.2 hused hclose

/-! ## Members -/

/-- Parameters and a body go on with the header of a method. -/
theorem methodRest_taken {header : Signature} : Gives (methodRest finish header ts) fun r rest =>
    ∃ ps bs params body, ts = ps ++ (bs ++ rest) ∧ SpellsParameters ps params ∧
      SpellsBlock .none bs body ∧
      r.1.marked .none = ⟨{ header.marked .none with params := params }, body⟩ := by
  unfold methodRest
  refine .bind parameters_taken fun params rest h hparams => ?_
  obtain ⟨ps, hts, hparams⟩ := hparams
  refine .bind (block_taken finish .none (header.id + 1) rest).within ?_
  rintro ⟨body, next⟩ last h' ⟨bs, rfl, hbody⟩
  exact .ok ⟨ps, bs, _, _, hts, hparams, hbody, by simp⟩

/-- What a reader of members has found, in the order in which it stands. -/
def Members.found (m : Members) : Members :=
  ⟨m.properties.reverse.map (Property.marked .none), m.constructors.reverse.map (Method.marked .none),
    m.methods.reverse.map (Method.marked .none), m.main.map (Method.marked .none)⟩

/-- Members behind others. -/
def Members.append (m m' : Members) : Members :=
  ⟨m.properties ++ m'.properties, m.constructors ++ m'.constructors, m.methods ++ m'.methods,
    m'.main.or m.main⟩

/-- The tokens in front of the rest are a member, which is added to those that are read already. -/
inductive MemberTaken (className : String) (done : Members) (ts : List Token) :
    Members → List Token → Prop
  | property {d : Property} {rest : List Token} :
      Taken SpellsProperty ts (d.marked .none) rest →
      MemberTaken className done ts { done with properties := d :: done.properties } rest
  | constructor {d : Method} {rest : List Token} :
      Taken SpellsConstructor ts (d.marked .none) rest → d.signature.name = className →
      MemberTaken className done ts { done with constructors := d :: done.constructors } rest
  | method {d : Method} {rest : List Token} : Taken SpellsMethod ts (d.marked .none) rest →
      MemberTaken className done ts { done with methods := d :: done.methods } rest
  | main {d : Method} {rest : List Token} : Taken SpellsMain ts (d.marked .none) rest →
      done.main = none → MemberTaken className done ts { done with main := some d } rest

/-- The tokens in front of the rest are members that follow those that are read already, and a
closing brace. -/
def MembersTaken (className : String) (done : Members) (ts : List Token) (r : Members × NodeId)
    (rest : List Token) : Prop :=
  ∃ used closing m, ts = used ++ closing :: rest ∧ closing.kind = .symbol .rightBrace ∧
    SpellsMembers className used m ∧ r.1.found = done.found.append m ∧
    (done.main.isSome = true → m.main = none)

theorem MemberTaken.members {className : String} {done next : Members} {more rest : List Token}
    {r : Members × NodeId} (h : MemberTaken className done ts next more)
    (hrest : MembersTaken className next more r rest) : MembersTaken className done ts r rest := by
  obtain ⟨used, closing, m, rfl, hclose, hm, hfound, honce⟩ := hrest
  cases h with
  | property h =>
    obtain ⟨ds, rfl, hd⟩ := h
    exact ⟨ds ++ used, closing, _, by simp, hclose, .property hd hm,
      hfound.trans (by simp [Members.found, Members.append]), honce⟩
  | constructor h hname =>
    obtain ⟨ds, rfl, hd⟩ := h
    exact ⟨ds ++ used, closing, _, by simp, hclose, .constructor hd (by simpa using hname) hm,
      hfound.trans (by simp [Members.found, Members.append]), honce⟩
  | method h =>
    obtain ⟨ds, rfl, hd⟩ := h
    exact ⟨ds ++ used, closing, _, by simp, hclose, .method hd hm,
      hfound.trans (by simp [Members.found, Members.append]), honce⟩
  | main h hnone =>
    obtain ⟨ds, rfl, hd⟩ := h
    have hmain : m.main = none := honce rfl
    exact ⟨ds ++ used, closing, _, by simp, hclose, .main hd hmain hm,
      hfound.trans (by simp [Members.found, Members.append, hmain]), by simp [hnone]⟩

theorem mainMethod_taken {p : Position} {access : Option Access} {id : NodeId} {as : List Token}
    {static : Token} (haccess : SpellsAccess as (access.getD .public_))
    (hstatic : static.isKeyword "static" = true) :
    Gives (mainMethod finish p access id ts) fun r =>
      Taken (fun used => SpellsMain (as ++ static :: used)) ts (r.1.marked .none) := by
  unfold mainMethod
  dsimp only
  split
  · exact .error_bind
  · rename_i hpublic
    have hpublic : access.getD .public_ = .public_ := by
      cases access with
      | none => rfl
      | some a => simpa using hpublic
    rw [hpublic] at haccess
    split
    · exact .error
    · rename_i void rest h hp
      obtain ⟨hts, hvoid⟩ := acceptKeyword_eq_some hp
      split
      · exact .error
      · rename_i t rest' h' hp'
        obtain ⟨hrest, htest⟩ := accept_eq_some hp'
        simp only [Bool.and_eq_true, beq_iff_eq] at htest
        refine .bind parameters_taken.within fun params rest'' h'' hparams => ?_
        obtain ⟨ps, hrest', hparams⟩ := hparams
        dsimp only
        split
        · exact .error_bind
        · rename_i htypes
          refine .bind (block_taken finish .none (id + 1) rest'').within ?_
          rintro ⟨body, next⟩ last h₃ ⟨bs, rfl, hbody⟩
          obtain ⟨x, rfl, htype⟩ := List.map_eq_singleton_iff.1 (Decidable.not_not.1 htypes)
          refine .ok ⟨void :: t :: (ps ++ bs), by simp [hts, hrest, hrest'], ?_⟩
          simp only [List.map_cons, List.map_nil, Parameter.marked, htype] at hparams
          simpa [htype] using .mk haccess hstatic hvoid htest.1 htest.2 hparams hbody

theorem initialValue_taken : Gives (initialValue finish ts) fun value =>
    Taken (SpellsOptional SpellsValue) ts (value.map (Expr.marked .none)) := by
  unfold initialValue
  split
  · rename_i sign rest h hp
    obtain ⟨rfl, hsign⟩ := acceptSymbol_eq_some hp
    refine .bind expression_taken.within fun value last h' hvalue => ?_
    obtain ⟨vs, rfl, hvalue⟩ := hvalue
    exact .ok ⟨sign :: vs, rfl, .some (.mk hsign hvalue)⟩
  · exact .ok ⟨[], rfl, .none⟩

theorem typedMember_taken {className : String} {p : Position} {access : Access} {done : Members}
    {id : NodeId} {as input : List Token} (haccess : SpellsAccess as access)
    (hinput : input = as ++ ts) :
    Gives (typedMember finish p access done id ts) fun r => MemberTaken className done input r.1 := by
  unfold typedMember
  refine .bind returnType_taken fun type rest h htype => ?_
  obtain ⟨us, rfl, htype⟩ := htype
  refine .bind expectName_taken.within fun name rest' h' hname => ?_
  obtain ⟨t, rfl, ht, rfl⟩ := hname
  dsimp only
  split
  · refine .bind methodRest_taken.within ?_
    rintro ⟨method, next⟩ last h'' ⟨ps, bs, params, body, rfl, hparams, hbody, hmethod⟩
    refine .ok (.method ⟨as ++ (us ++ t :: (ps ++ bs)), by simp [hinput], ?_⟩)
    rw [hmethod]
    exact .mk haccess htype ht hparams hbody
  · split
    · exact .error
    · rename_i hvoid
      refine .bind initialValue_taken.optionalWithin fun value rest'' h'' hvalue => ?_
      obtain ⟨vs, rfl, hvalue⟩ := hvalue
      refine .bind expectSymbol_taken.within fun semicolon last h₃ hsemicolon => ?_
      obtain ⟨rfl, hsemicolon⟩ := hsemicolon
      have hne : type ≠ .void := by
        rintro rfl
        exact hvoid rfl
      refine .ok (.property ⟨as ++ (us ++ t :: vs ++ [semicolon]), by simp [hinput], ?_⟩)
      cases htype with
      | void hword => exact absurd rfl hne
      | type htype =>
        have hv := SpellsVariable.mk htype ht hvalue
        exact .mk haccess hv hne hsemicolon

theorem atConstructor_iff {className : String} : atConstructor className ts = true ↔
    ∃ t rest, ts = t :: rest ∧ t.kind = .identifier ∧ t.text = className ∧
      atSymbol .leftParen rest = true := by
  cases ts with
  | nil => simp [atConstructor]
  | cons t rest => simp [atConstructor, and_assoc]

theorem constructorMember_taken {className : String} {p : Position} {access : Access}
    {done : Members} {id : NodeId} {as input : List Token} (haccess : SpellsAccess as access)
    (hinput : input = as ++ ts) (hat : atConstructor className ts = true) :
    Gives (constructorMember finish p className access done id ts) fun r =>
      MemberTaken className done input r.1 := by
  obtain ⟨t, rest, rfl, hkind, rfl, -⟩ := atConstructor_iff.1 hat
  unfold constructorMember
  refine .bind expectName_taken fun name rest' h' hname => ?_
  obtain ⟨_, ⟨⟩, -, rfl⟩ := hname
  refine .bind methodRest_taken.within ?_
  rintro ⟨method, next⟩ last h'' ⟨ps, bs, params, body, rfl, hparams, hbody, hmethod⟩
  have hname : method.signature.name = t.text := by
    simpa using congrArg (fun d => d.signature.name) hmethod
  refine .ok (.constructor ⟨as ++ t :: (ps ++ bs), by simp [hinput], ?_⟩ hname)
  rw [hmethod]
  exact .mk haccess hkind hparams hbody

theorem member_taken {className : String} {done : Members} {id : NodeId} :
    Gives (member finish className done id ts) fun r => MemberTaken className done ts r.1 := by
  obtain ⟨as, hts, haccess⟩ := accessModifier_taken ts
  unfold member
  dsimp only
  split
  · rename_i static more h hp
    obtain ⟨hmore, hstatic⟩ := acceptKeyword_eq_some hp
    refine .bind (mainMethod_taken haccess hstatic).within.behind ?_
    rintro ⟨main, next⟩ rest h' ⟨used, rfl, hmain⟩
    dsimp only
    split
    · exact .error_bind
    · rename_i hnone
      exact .ok (.main ⟨_, by simp [hts, hmore], hmain⟩ (by simpa using hnone))
  · split
    · rename_i hat
      exact (constructorMember_taken haccess hts hat).behind
    · exact (typedMember_taken haccess hts).behind

theorem members_taken (finish : Position) (className : String) (bound : Nat) (done : Members)
    (id : NodeId) (ts : List Token) (h : ts.length < bound) :
    Gives (members finish className bound done id ts h) (MembersTaken className done ts) := by
  rw [members]
  split
  · rename_i closing rest h' hp
    obtain ⟨hts, hclose⟩ := acceptSymbol_eq_some hp
    exact .ok ⟨[], closing, _, hts, hclose, .nil, by simp [Members.append], by simp⟩
  · split
    · exact .error
    · refine .bind member_taken ?_
      rintro ⟨next, middle⟩ rest h' hnext
      exact (members_taken finish className bound next middle rest _).imp
        fun _ _ hrest => hnext.members hrest
termination_by ts.length
decreasing_by omega

/-! ## Types -/

theorem supertype_taken {word what : String} : Gives (supertype finish word what ts) fun name =>
    Taken (SpellsOptional (SpellsSupertype word)) ts name := by
  unfold supertype
  split
  · rename_i k rest h hp
    obtain ⟨rfl, hk⟩ := acceptKeyword_eq_some hp
    refine .bind typeName_taken.within fun name last h' hname => ?_
    obtain ⟨t, rfl, ht⟩ := hname
    exact .ok ⟨[k, t], rfl, .some (.mk hk ht)⟩
  · exact .ok ⟨[], rfl, .none⟩

theorem classRest_taken {p : Position} {id : NodeId} {word : Token}
    (hword : word.isKeyword "class" = true) : Gives (classRest finish p id ts) fun r =>
      Taken (fun used => SpellsClass (word :: used)) ts (r.1.marked .none) := by
  unfold classRest
  refine .bind expectName_taken fun name rest h hname => ?_
  obtain ⟨t, rfl, ht, rfl⟩ := hname
  refine .bind supertype_taken.optionalWithin fun superclass rest' h' hsuper => ?_
  obtain ⟨ss, rfl, hsuper⟩ := hsuper
  refine .bind supertype_taken.optionalWithin fun interface rest'' h'' hinterface => ?_
  obtain ⟨is, rfl, hinterface⟩ := hinterface
  refine .bind expectSymbol_taken.within fun opening rest₃ h₃ hopen => ?_
  obtain ⟨rfl, hopen⟩ := hopen
  refine .bind (members_taken finish t.text _ _ (id + 1) rest₃ h₃) ?_
  rintro ⟨found, next⟩ last h₄ ⟨used, closing, m, rfl, hclose, hm, hfound, -⟩
  refine .ok ⟨t :: (ss ++ (is ++ opening :: (used ++ [closing]))), by simp, ?_⟩
  have hm' : found.found = m := hfound.trans (by simp [Members.found, Members.append])
  rw [← hm'] at hm
  exact .mk hword ht hsuper hinterface hopen hm hclose

theorem interfaceMethods_taken (finish : Position) (bound : Nat) (done : List Signature)
    (id : NodeId) (ts : List Token) (h : ts.length < bound) :
    Gives (interfaceMethods finish bound done id ts h) fun r rest =>
      ∃ used closing new, ts = used ++ closing :: rest ∧ closing.kind = .symbol .rightBrace ∧
        SpellsAll SpellsSignature used new ∧
        r.1.map (Signature.marked .none) = done.reverse.map (Signature.marked .none) ++ new := by
  obtain ⟨as, hts, haccess⟩ := accessModifier_taken ts
  rw [interfaceMethods]
  split
  · rename_i closing rest h' hp
    obtain ⟨hts, hclose⟩ := acceptSymbol_eq_some hp
    exact .ok ⟨[], closing, [], hts, hclose, .nil, by simp⟩
  · dsimp only
    refine .bind returnType_taken.behind fun returns rest h' hreturns => ?_
    obtain ⟨us, hrest, hreturns⟩ := hreturns
    refine .bind expectName_taken.within fun name rest' h'' hname => ?_
    obtain ⟨t, rfl, ht, rfl⟩ := hname
    refine .bind parameters_taken.within fun params rest'' h₃ hparams => ?_
    obtain ⟨ps, rfl, hparams⟩ := hparams
    refine .bind expectSymbol_taken.within fun semicolon last h₄ hsemicolon => ?_
    obtain ⟨rfl, hsemicolon⟩ := hsemicolon
    refine (interfaceMethods_taken finish bound _ (id + 1) last _).imp ?_
    rintro r final ⟨used, closing, new, rfl, hclose, hnew, hr⟩
    have hsignature := SpellsSignature.mk haccess hreturns ht hparams hsemicolon
    refine ⟨_ ++ used, closing, _, ?_, hclose, .cons hsignature hnew, ?_⟩
    · simp [hts, hrest]
    · simpa using hr
termination_by ts.length
decreasing_by omega

theorem interfaceRest_taken {p : Position} {id : NodeId} {word : Token}
    (hword : word.isKeyword "interface" = true) : Gives (interfaceRest finish p id ts) fun r =>
      Taken (fun used => SpellsInterface (word :: used)) ts (r.1.marked .none) := by
  unfold interfaceRest
  refine .bind expectName_taken fun name rest h hname => ?_
  obtain ⟨t, rfl, ht, rfl⟩ := hname
  refine .bind expectSymbol_taken.within fun opening rest' h' hopen => ?_
  obtain ⟨rfl, hopen⟩ := hopen
  refine .bind (interfaceMethods_taken finish _ [] (id + 1) rest' h') ?_
  rintro ⟨methods, next⟩ last h'' ⟨used, closing, new, rfl, hclose, hnew, hmethods⟩
  refine .ok ⟨t :: opening :: (used ++ [closing]), by simp, ?_⟩
  have hmethods' : methods.map (Signature.marked .none) = new := hmethods
  rw [← hmethods'] at hnew
  exact .mk hword ht hopen hnew hclose

theorem typeDeclarationRest_taken {p : Position} {id : NodeId} :
    Gives (typeDeclarationRest finish p id ts) fun r =>
      Taken SpellsKind ts (r.1.marked .none) := by
  unfold typeDeclarationRest
  split
  · rename_i word rest h hp
    obtain ⟨hts, hword⟩ := acceptKeyword_eq_some hp
    refine .bind (classRest_taken hword).within ?_
    rintro ⟨d, next⟩ last h' ⟨used, hrest, hd⟩
    exact .ok ⟨word :: used, by simp [hts, hrest], .class_ hd⟩
  · split
    · rename_i word rest h hp
      obtain ⟨hts, hword⟩ := acceptKeyword_eq_some hp
      refine .bind (interfaceRest_taken hword).within ?_
      rintro ⟨d, next⟩ last h' ⟨used, hrest, hd⟩
      exact .ok ⟨word :: used, by simp [hts, hrest], .interface hd⟩
    · exact .error

theorem typeDeclaration_taken {id : NodeId} : Gives (typeDeclaration finish id ts) fun r =>
    Taken SpellsTypeDecl ts (r.1.marked .none) := by
  unfold typeDeclaration
  dsimp only
  split
  · rename_i word rest h hp
    obtain ⟨hts, hword⟩ := acceptKeyword_eq_some hp
    refine typeDeclarationRest_taken.within.imp ?_
    rintro r last ⟨used, hrest, hd⟩
    exact ⟨word :: used, by simp [hts, hrest], .public_ hword hd⟩
  · exact typeDeclarationRest_taken.imp fun _ _ h => h.imp fun _ h => .unmarked h

theorem declarations_taken (finish : Position) (done : List TypeDecl) (id : NodeId)
    (ts : List Token) {r : Program × NodeId} (h : declarations finish done id ts = .ok r) :
    ∃ new, SpellsAll SpellsTypeDecl ts new ∧ r.1.declarations.map (TypeDecl.marked .none) =
      done.reverse.map (TypeDecl.marked .none) ++ new := by
  rw [declarations] at h
  split at h
  · rename_i hempty
    cases h
    obtain rfl := List.isEmpty_iff.1 hempty
    exact ⟨[], .nil, by simp⟩
  · cases hd : typeDeclaration finish id ts with
    | error fault =>
      rw [hd] at h
      cases h
    | ok q =>
      rw [hd] at h
      obtain ⟨⟨decl, next⟩, rest, hlt⟩ := q
      obtain ⟨used, hts, hused⟩ := typeDeclaration_taken _ hd
      obtain ⟨new, hnew, hr⟩ := declarations_taken finish (decl :: done) next rest h
      refine ⟨decl.marked .none :: new, ?_, by simpa using hr⟩
      rw [hts]
      exact .cons hused hnew
termination_by ts.length

end Javelet.Grammar

namespace Javelet

open Grammar

/-- A token list spells the program that it is read as. -/
theorem spellsProgram_of_parse {ts : List Token} {p : Program} (h : parse ts = .ok p) :
    SpellsProgram ts (p.marked .none) := by
  unfold parse at h
  cases hd : declarations (finishOf ts) [] 0 ts with
  | error fault =>
    rw [hd] at h
    cases h
  | ok r =>
    rw [hd] at h
    cases h
    obtain ⟨new, hnew, hr⟩ := declarations_taken _ _ _ _ hd
    have hr' : r.1.declarations.map (TypeDecl.marked .none) = new := by simpa using hr
    rw [← hr'] at hnew
    exact hnew

end Javelet
