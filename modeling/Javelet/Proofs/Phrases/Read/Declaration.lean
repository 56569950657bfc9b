import Javelet.Proofs.Phrases.Read.Statement
import Javelet.Proofs.Phrases.Taken.Declaration

/-!
# Phrases of declarations are read

A reader of declarations reads every phrase, whatever follows. What kind of member a phrase is shows
behind its modifier: the entry point has the word `static`, a constructor has the name of the class
and a parenthesis, and all others have a type and a name. So the programs that token lists are read
as are exactly those that they spell.
-/
namespace Javelet.Grammar

variable {ts rest input : List Token} {finish : Position}

/-! ## Headers -/

/-- No access modifier stands here. -/
def NoAccess (ts : List Token) : Prop :=
  ∀ t ∈ ts.head?, t.kind = .keyword → Access.ofKeyword? t.text = none

theorem noAccess_of_kind {t : Token} (h : t.kind ≠ .keyword) : NoAccess (t :: ts) := by
  intro u hu hkind
  cases hu
  exact absurd hkind h

theorem noAccess_of_isKeyword {t : Token} {word : String} (h : t.isKeyword word = true)
    (hword : Access.ofKeyword? word = none) : NoAccess (t :: ts) := by
  intro u hu _
  cases hu
  rwa [text_of_isKeyword h]

theorem accessModifier_reads {access : Access} (h : SpellsAccess ts access) (hrest : NoAccess rest) :
    ∃ value hlt, accessModifier (ts ++ rest) = ⟨value, rest, hlt⟩ ∧
      value.getD .public_ = access := by
  have hword : ∀ {t : Token} {word : String} {access : Access}, t.isKeyword word = true →
      Access.ofKeyword? word = some access →
      accessModifier (t :: rest) = ⟨some access, rest, Nat.lt_succ_of_lt (shorter_cons t rest)⟩ := by
    intro t word access ht haccess
    simp [accessModifier, accept, kind_of_isKeyword ht, text_of_isKeyword ht, haccess,
      Parsed.optional]
  cases h with
  | unmarked =>
    refine ⟨none, shorter_succ rest, ?_, rfl⟩
    have hnone : accept (fun t => t.kind == .keyword && (Access.ofKeyword? t.text).isSome) rest =
        none := by
      cases rest with
      | nil => rfl
      | cons t more =>
        by_cases hkind : t.kind = .keyword
        · simp [accept, hrest t rfl hkind]
        · simp [accept, hkind]
    show accessModifier rest = _
    simp only [accessModifier, hnone]
  | public_ h => exact ⟨_, _, hword h rfl, rfl⟩
  | protected_ h => exact ⟨_, _, hword h rfl, rfl⟩
  | private_ h => exact ⟨_, _, hword h rfl, rfl⟩

theorem SpellsType.starts {type_ : Ty} (h : SpellsType ts type_) :
    ∃ t more, ts = t :: more ∧ StartsSimple t := by
  cases h with
  | plain h => exact ⟨_, _, rfl, h.startsSimple⟩
  | array h _ _ => exact ⟨_, _, rfl, h.startsSimple⟩

/-- Neither a modifier nor the word `static` is in front of a type. -/
theorem StartsSimple.noAccess {t : Token} (h : StartsSimple t) : NoAccess (t :: ts) := by
  rcases h with h | ⟨word, hmem, h⟩
  · exact noAccess_of_kind (by simp [h])
  · have hwords : ∀ word ∈ simpleWords, Access.ofKeyword? word = none := by decide
    exact noAccess_of_isKeyword h (hwords word hmem)

theorem SpellsReturnType.reads {type_ : Ty} (h : SpellsReturnType ts type_) :
    IsRead (returnType finish) (acceptSymbol .leftBracket · = none) ts (· = type_) := by
  rintro rest input rfl hrest
  unfold returnType
  cases h with
  | void hword =>
    simp only [List.cons_append, acceptKeyword_cons hword]
    exact .ok rfl
  | type h =>
    have hvoid : acceptKeyword "void" (ts ++ rest) = none := by
      obtain ⟨t, more, rfl, ht⟩ := h.starts
      exact acceptKeyword_cons_of_ne (ht.isKeyword (by decide))
    simp only [hvoid]
    exact h.reads rfl hrest

theorem SpellsReturnType.starts {type_ : Ty} (h : SpellsReturnType ts type_) :
    ∃ t more, ts = t :: more ∧ (t.isKeyword "void" = true ∨ StartsSimple t) := by
  cases h with
  | void h => exact ⟨_, _, rfl, .inl h⟩
  | type h =>
    obtain ⟨t, more, rfl, ht⟩ := h.starts
    exact ⟨t, more, rfl, .inr ht⟩

/-! ## Parameters -/

theorem SpellsParameterSeries.starts {params : List Parameter}
    (h : SpellsParameterSeries ts params) : ∃ t more, ts = t :: more ∧ StartsSimple t := by
  cases h with
  | one h =>
    obtain ⟨htype, -⟩ := h
    obtain ⟨t, more, rfl, ht⟩ := htype.starts
    exact ⟨t, _, rfl, ht⟩
  | more h _ _ =>
    obtain ⟨htype, -⟩ := h
    obtain ⟨t, more, rfl, ht⟩ := htype.starts
    exact ⟨t, _, rfl, ht⟩

/-- The phrase is read as parameters behind those that are read already. -/
theorem SpellsParameterSeries.reads {params : List Parameter} (h : SpellsParameterSeries ts params)
    {bound : Nat} {done : List Parameter} {closing : Token} {hlt : input.length < bound}
    (hclose : closing.kind = .symbol .rightParen) (hinput : input = ts ++ closing :: rest) :
    Succeeds (moreParameters finish bound done input hlt) (fun ps =>
      ps.map (Parameter.marked .none) = done.reverse.map (Parameter.marked .none) ++ params)
      rest := by
  induction h generalizing done input with
  | one h =>
    obtain ⟨htype, ht⟩ := h
    rename_i us type_ t
    obtain rfl : input = us ++ t :: closing :: rest := by simp [hinput]
    have hcomma : acceptSymbol .comma (closing :: rest) = none :=
      acceptSymbol_cons_of_ne (by simp [hclose])
    rw [moreParameters]
    refine .bind (htype.reads rfl (acceptSymbol_of_identifier ht)) fun _ _ htype => ?_
    refine .bind (expectName_reads ht).within fun _ _ hname => ?_
    simp only [hcomma, Option.map_none]
    exact .bind (expectSymbol_reads hclose).within fun _ _ _ => .ok (by simp [htype, hname])
  | @more _ more comma _ params h hcomma _ ih =>
    obtain ⟨htype, ht⟩ := h
    rename_i us type_ t
    obtain rfl : input = us ++ t :: comma :: (more ++ closing :: rest) := by simp [hinput]
    rw [moreParameters]
    refine .bind (htype.reads rfl (acceptSymbol_of_identifier ht)) fun _ _ htype => ?_
    refine .bind (expectName_reads ht).within fun _ _ hname => ?_
    simp only [acceptSymbol_cons hcomma, Option.map_some]
    exact (ih rfl).imp fun ps hps => by simp [hps, htype, hname]

theorem SpellsParameters.reads {params : List Parameter} (h : SpellsParameters ts params) :
    IsRead (parameters finish) (fun _ => True) ts
      (·.map (Parameter.marked .none) = params) := by
  rintro rest input hinput -
  cases h with
  | @none opening closing hopen hclose =>
    obtain rfl : input = opening :: closing :: rest := hinput
    unfold parameters
    refine .bind (expectSymbol_reads hopen) fun _ _ _ => ?_
    simp only [acceptSymbol_cons hclose]
    exact .ok rfl
  | @some opening closing us _ hopen h hclose =>
    obtain rfl : input = opening :: (us ++ closing :: rest) := by simp [hinput]
    have hnone : acceptSymbol .rightParen (us ++ closing :: rest) = Option.none := by
      obtain ⟨t, more, rfl, ht⟩ := h.starts
      exact acceptSymbol_of_atSymbol_eq_false (ht.atSymbol _)
    unfold parameters
    refine .bind (expectSymbol_reads hopen) fun _ _ _ => ?_
    simp only [hnone]
    exact (h.reads hclose rfl).imp fun ps hps => by simpa using hps

theorem SpellsParameters.atSymbol {params : List Parameter} (h : SpellsParameters ts params) :
    atSymbol .leftParen (ts ++ rest) = true := by
  cases h with
  | none hopen _ => exact atSymbol_cons.2 hopen
  | some hopen _ _ => exact atSymbol_cons.2 hopen

/-! ## Members -/

theorem methodRest_reads {header : Signature} {ps bs : List Token} {params : List Parameter}
    {body : Block} (hparams : SpellsParameters ps params) (hbody : SpellsBlock .none bs body) :
    Succeeds (methodRest finish header (ps ++ (bs ++ rest))) (fun r =>
      r.1.marked .none = ⟨{ header.marked .none with params := params }, body⟩) rest := by
  unfold methodRest
  refine .bind (hparams.reads rfl trivial) fun _ _ hparams => ?_
  refine .bind (hbody.reads finish (header.id + 1) rfl trivial).within ?_
  rintro ⟨body', next⟩ hlt hbody
  exact .ok (by simp [hparams, hbody])

/-- The reader of members adds one to those that are read already. -/
def ReadAsMember (className : String) (done : Members) (phrase : List Token)
    (next : Members → Prop) : Prop :=
  ∀ finish id, IsRead (member finish className done id) (fun _ => True) phrase (next ·.1)

/-- A type and the name behind it start no constructor. -/
theorem atConstructor_of_type {className : String} {type_ : Ty} {t : Token}
    (h : SpellsReturnType ts type_) (ht : t.kind = .identifier) :
    atConstructor className (ts ++ t :: rest) = false := by
  rw [Bool.eq_false_iff, Ne, atConstructor_iff]
  rintro ⟨u, more, hsplit, hkind, -, hparen⟩
  cases h with
  | void hword =>
    cases hsplit
    rw [kind_of_isKeyword hword] at hkind
    cases hkind
  | type h =>
    cases h with
    | plain _ =>
      cases hsplit
      cases ht.symm.trans (atSymbol_cons.1 hparen)
    | array _ hopen _ =>
      cases hsplit
      cases hopen.symm.trans (atSymbol_cons.1 hparen)

/-- Behind its modifier a member that starts with a type is read as such. -/
theorem member_of_type {className : String} {done : Members} {id : NodeId} {as : List Token}
    {access : Access} {type_ : Ty} {t : Token} {Q : Members × NodeId → Prop}
    (haccess : SpellsAccess as access) (htype : SpellsReturnType ts type_)
    (ht : t.kind = .identifier) (hinput : input = as ++ (ts ++ t :: rest)) {last : List Token}
    (h : ∀ p, Succeeds (typedMember finish p access done id (ts ++ t :: rest)) Q last) :
    Succeeds (member finish className done id input) Q last := by
  subst hinput
  have hnone : NoAccess (ts ++ t :: rest) ∧ acceptKeyword "static" (ts ++ t :: rest) = none := by
    obtain ⟨u, more, rfl, hvoid | hu⟩ := htype.starts
    · exact ⟨noAccess_of_isKeyword hvoid (by decide),
        acceptKeyword_cons_of_ne (isKeyword_of_ne hvoid (by decide))⟩
    · exact ⟨hu.noAccess, acceptKeyword_cons_of_ne (hu.isKeyword (by decide))⟩
  obtain ⟨value, hlt, hmodifier, rfl⟩ := accessModifier_reads haccess hnone.1
  unfold member
  rw [hmodifier]
  simp only [hnone.2, atConstructor_of_type htype ht, Bool.false_eq_true, ↓reduceIte]
  exact (h _).behind

theorem isVoid_of_ne {type_ : Ty} (h : type_ ≠ .void) : type_.isVoid = false := by
  obtain ⟨name, isArray⟩ := type_
  cases isArray with
  | true => simp [Ty.isVoid]
  | false =>
    have hname : name ≠ "void" := by
      rintro rfl
      exact h rfl
    simp [Ty.isVoid, hname]

theorem initialValue_reads {value : Option Expr} {t : Token}
    (h : SpellsOptional SpellsValue ts value) (ht : t.kind = .symbol .semicolon) :
    Succeeds (initialValue finish (ts ++ t :: rest)) (·.map (Expr.marked .none) = value)
      (t :: rest) := by
  unfold initialValue
  cases h with
  | none =>
    have hassign : acceptSymbol .assign ([] ++ t :: rest) = none :=
      acceptSymbol_cons_of_ne (by simp [ht])
    simp only [hassign]
    exact .ok rfl
  | some h =>
    obtain ⟨hsign, he⟩ := h
    simp only [List.cons_append, acceptSymbol_cons hsign]
    exact .bind (he.reads rfl (closes_semicolon ht).ends).within fun _ _ hvalue =>
      .ok (congrArg some hvalue)

theorem SpellsProperty.reads {className : String} {done : Members} {d : Property}
    (h : SpellsProperty ts d) : ReadAsMember className done ts fun next =>
      ∃ d', d'.marked .none = d ∧ next = { done with properties := d' :: done.properties } := by
  rintro finish id rest input hinput -
  obtain ⟨haccess, hv, hne, hsemicolon⟩ := h
  obtain ⟨htype, ht, hvalue⟩ := hv
  rename_i as semicolon access us vs type_ t value
  refine member_of_type haccess (.type htype) ht
    (show input = as ++ (us ++ t :: (vs ++ semicolon :: rest)) by simp [hinput]) fun p => ?_
  have hparen : Grammar.atSymbol .leftParen (vs ++ semicolon :: rest) = false := by
    cases hvalue with
    | none => exact atSymbol_of_ne (atSymbol_cons.2 hsemicolon) nofun
    | some h =>
      obtain ⟨hsign, -⟩ := h
      exact atSymbol_of_ne (atSymbol_cons.2 hsign) nofun
  unfold typedMember
  refine .bind ((SpellsReturnType.type htype).reads rfl (acceptSymbol_of_identifier ht)) ?_
  rintro type_' _ rfl
  refine .bind (expectName_reads ht).within fun _ _ hname => ?_
  simp only [hparen, isVoid_of_ne hne, Bool.false_eq_true, ↓reduceIte]
  refine .bind (initialValue_reads hvalue hsemicolon).optionalWithin fun _ _ hvalue => ?_
  refine .bind (expectSymbol_reads hsemicolon).within fun _ _ _ => ?_
  exact .ok ⟨_, by simp [hname, hvalue], rfl⟩

theorem SpellsMethod.reads {className : String} {done : Members} {d : Method}
    (h : SpellsMethod ts d) : ReadAsMember className done ts fun next =>
      ∃ d', d'.marked .none = d ∧ next = { done with methods := d' :: done.methods } := by
  rintro finish id rest input hinput -
  obtain ⟨haccess, hreturns, ht, hparams, hbody⟩ := h
  rename_i as us ps bs t access returns params body
  refine member_of_type haccess hreturns ht
    (show input = as ++ (us ++ t :: (ps ++ (bs ++ rest))) by simp [hinput]) fun p => ?_
  have hparen : Grammar.atSymbol .leftParen (ps ++ (bs ++ rest)) = true := hparams.atSymbol
  unfold typedMember
  refine .bind (hreturns.reads rfl (acceptSymbol_of_identifier ht)) ?_
  rintro returns' _ rfl
  refine .bind (expectName_reads ht).within ?_
  rintro name _ rfl
  simp only [hparen, ↓reduceIte]
  refine .bind (methodRest_reads hparams hbody).within ?_
  rintro ⟨method, next⟩ hlt hmethod
  exact .ok ⟨method, hmethod, rfl⟩

theorem SpellsConstructor.reads {className : String} {done : Members} {d : Method}
    (h : SpellsConstructor ts d) (hname : d.signature.name = className) :
    ReadAsMember className done ts fun next =>
      ∃ d', d'.marked .none = d ∧ next = { done with constructors := d' :: done.constructors } := by
  rintro finish id rest input hinput -
  obtain ⟨haccess, ht, hparams, hbody⟩ := h
  rename_i as ps bs t access params body
  obtain rfl : t.text = className := hname
  obtain rfl : input = as ++ t :: (ps ++ (bs ++ rest)) := by simp [hinput]
  have hstatic : acceptKeyword "static" (t :: (ps ++ (bs ++ rest))) = none :=
    acceptKeyword_cons_of_ne (isKeyword_of_kind (by simp [ht]))
  have hat : atConstructor t.text (t :: (ps ++ (bs ++ rest))) = true :=
    atConstructor_iff.2 ⟨t, _, rfl, ht, rfl, hparams.atSymbol⟩
  have hno : NoAccess (t :: (ps ++ (bs ++ rest))) := noAccess_of_kind (by simp [ht])
  obtain ⟨value, hlt, hmodifier, rfl⟩ := accessModifier_reads haccess hno
  unfold member
  rw [hmodifier]
  simp only [hstatic, hat, ↓reduceIte]
  refine Succeeds.behind ?_
  unfold constructorMember
  refine .bind (expectName_reads ht) fun _ _ _ => ?_
  refine .bind (methodRest_reads hparams hbody).within ?_
  rintro ⟨method, next⟩ hlt' hmethod
  exact .ok ⟨method, hmethod, rfl⟩

theorem mainMethod_reads {p : Position} {access : Option Access} {id : NodeId} {void t : Token}
    {ps bs : List Token} {name : String} {body : Block} (haccess : access.getD .public_ = .public_)
    (hvoid : void.isKeyword "void" = true) (ht : t.kind = .identifier) (htext : t.text = "main")
    (hparams : SpellsParameters ps [⟨.start, ⟨"String", true⟩, name⟩])
    (hbody : SpellsBlock .none bs body) :
    Succeeds (mainMethod finish p access id (void :: t :: (ps ++ (bs ++ rest)))) (fun r =>
      r.1.marked .none =
        ⟨⟨0, .main, .public_, .void, "main", [⟨.start, ⟨"String", true⟩, name⟩], .start⟩, body⟩)
      rest := by
  have hpublic : access.any (· != .public_) = false := by
    cases access with
    | none => rfl
    | some a => simpa using haccess
  have hmain : accept (fun t => t.kind == .identifier && t.text == "main")
      (t :: (ps ++ (bs ++ rest))) = some ⟨t, ps ++ (bs ++ rest), shorter_cons ..⟩ := by
    simp [accept, ht, htext]
  unfold mainMethod
  simp only [hpublic, acceptKeyword_cons hvoid, hmain, Bool.false_eq_true, ↓reduceIte]
  refine .bind (hparams.reads rfl trivial).within fun params _ hparams => ?_
  obtain ⟨x, rfl, hx⟩ := List.map_eq_singleton_iff.1 hparams
  have htype : [x].map Parameter.type = [⟨"String", true⟩] := by
    simpa using congrArg Parameter.type hx
  simp only [htype, ne_eq, not_true_eq_false, ↓reduceIte]
  refine .bind (hbody.reads finish (id + 1) rfl trivial).within ?_
  rintro ⟨body', next⟩ hlt hbody
  exact .ok (by simp [← hx, hbody])

theorem SpellsMain.reads {className : String} {done : Members} {d : Method}
    (h : SpellsMain ts d) (hnone : done.main = none) :
    ReadAsMember className done ts fun next =>
      ∃ d', d'.marked .none = d ∧ next = { done with main := some d' } := by
  rintro finish id rest input hinput -
  obtain ⟨haccess, hstatic, hvoid, ht, htext, hparams, hbody⟩ := h
  rename_i as ps bs static void t name body
  obtain rfl : input = as ++ static :: void :: t :: (ps ++ (bs ++ rest)) := by simp [hinput]
  have hno : NoAccess (static :: void :: t :: (ps ++ (bs ++ rest))) :=
    noAccess_of_isKeyword hstatic (by decide)
  obtain ⟨value, hlt, hmodifier, hpublic⟩ := accessModifier_reads haccess hno
  unfold member
  rw [hmodifier]
  simp only [acceptKeyword_cons hstatic]
  refine .bind (mainMethod_reads hpublic hvoid ht htext hparams hbody).within.behind ?_
  rintro ⟨method, next⟩ hlt' hmethod
  simp only [hnone, Option.isSome_none, Bool.false_eq_true, ↓reduceIte]
  exact .ok ⟨method, hmethod, rfl⟩

/-- A phrase starts with a word, not with a symbol. -/
def StartsWord (ts : List Token) : Prop := ∃ t more, ts = t :: more ∧ ∀ s, t.kind ≠ .symbol s

theorem startsWord_of_access {as : List Token} {access : Access} (has : SpellsAccess as access)
    (h : StartsWord ts) : StartsWord (as ++ ts) := by
  cases has with
  | unmarked => exact h
  | public_ h => exact ⟨_, _, rfl, by simp [kind_of_isKeyword h]⟩
  | protected_ h => exact ⟨_, _, rfl, by simp [kind_of_isKeyword h]⟩
  | private_ h => exact ⟨_, _, rfl, by simp [kind_of_isKeyword h]⟩

theorem SpellsReturnType.startsWord {type_ : Ty} (h : SpellsReturnType ts type_) :
    StartsWord (ts ++ rest) := by
  obtain ⟨t, more, rfl, hvoid | ht⟩ := h.starts
  · exact ⟨t, _, rfl, by simp [kind_of_isKeyword hvoid]⟩
  · exact ⟨t, _, rfl, ht.kind⟩

theorem SpellsProperty.startsWord {d : Property} (h : SpellsProperty ts d) : StartsWord ts := by
  obtain ⟨haccess, hv, -, -⟩ := h
  obtain ⟨t, more, rfl, ht⟩ := hv.starts
  exact startsWord_of_access haccess ⟨t, _, rfl, ht.kind⟩

theorem SpellsMethod.startsWord {d : Method} (h : SpellsMethod ts d) : StartsWord ts := by
  obtain ⟨haccess, hreturns, -, -, -⟩ := h
  exact startsWord_of_access haccess hreturns.startsWord

theorem SpellsConstructor.startsWord {d : Method} (h : SpellsConstructor ts d) : StartsWord ts := by
  obtain ⟨haccess, ht, -, -⟩ := h
  exact startsWord_of_access haccess ⟨_, _, rfl, by simp [ht]⟩

theorem SpellsMain.startsWord {d : Method} (h : SpellsMain ts d) : StartsWord ts := by
  obtain ⟨haccess, hstatic, -, -, -, -, -⟩ := h
  exact startsWord_of_access haccess ⟨_, _, rfl, by simp [kind_of_isKeyword hstatic]⟩

section Members

variable {className : String} {bound : Nat} {done : Members} {id : NodeId} {more last : List Token}

/-- One member is read, then those behind it. -/
theorem ReadAsMember.members {Q : Members → Prop} {R : Members × NodeId → Prop}
    {hlt : input.length < bound} (hread : ReadAsMember className done ts Q) (hstart : StartsWord ts)
    (hinput : input = ts ++ more) (h : ∀ next id' hlt', Q next →
      Succeeds (members finish className bound next id' more hlt') R last) :
    Succeeds (members finish className bound done id input hlt) R last := by
  have hnone : acceptSymbol .rightBrace input = none ∧ input.isEmpty = false := by
    obtain ⟨t, more, rfl, ht⟩ := hstart
    rw [hinput]
    exact ⟨acceptSymbol_cons_of_ne (ht _), rfl⟩
  rw [Grammar.members]
  simp only [hnone, Bool.false_eq_true, ↓reduceIte]
  exact .bind (hread finish id hinput trivial) fun next _ hnext => h _ _ _ hnext

/-- The phrase is read as members behind those that are read already. -/
theorem SpellsMembers.reads {m : Members} (h : SpellsMembers className ts m)
    {closing : Token} {hlt : input.length < bound} (hclose : closing.kind = .symbol .rightBrace)
    (hinput : input = ts ++ closing :: rest) (honce : done.main.isSome = true → m.main = none) :
    Succeeds (members finish className bound done id input hlt)
      (·.1.found = done.found.append m) rest := by
  induction h generalizing done id input with
  | nil =>
    obtain rfl : input = closing :: rest := hinput
    rw [members]
    simp only [acceptSymbol_cons hclose]
    exact .ok (by simp [Members.append])
  | property h _ ih =>
    refine h.reads.members h.startsWord (hinput.trans (List.append_assoc ..)) ?_
    rintro _ id' hlt' ⟨d', rfl, rfl⟩
    refine Succeeds.imp (ih rfl honce) fun r hr => hr.trans ?_
    simp [Members.found, Members.append]
  | constructor h hname _ ih =>
    refine (h.reads hname).members h.startsWord (hinput.trans (List.append_assoc ..)) ?_
    rintro _ id' hlt' ⟨d', rfl, rfl⟩
    refine Succeeds.imp (ih rfl honce) fun r hr => hr.trans ?_
    simp [Members.found, Members.append]
  | method h _ ih =>
    refine h.reads.members h.startsWord (hinput.trans (List.append_assoc ..)) ?_
    rintro _ id' hlt' ⟨d', rfl, rfl⟩
    refine Succeeds.imp (ih rfl honce) fun r hr => hr.trans ?_
    simp [Members.found, Members.append]
  | main h hmain _ ih =>
    have hnone : done.main = none := by
      rw [← Option.not_isSome_iff_eq_none]
      intro hsome
      cases honce hsome
    refine (h.reads hnone).members h.startsWord (hinput.trans (List.append_assoc ..)) ?_
    rintro _ id' hlt' ⟨d', rfl, rfl⟩
    refine (ih rfl fun _ => hmain).imp fun r hr => hr.trans ?_
    simp [Members.found, Members.append, hmain]

end Members

/-! ## Types -/

theorem supertype_reads {word what : String} {name : Option String}
    (h : SpellsOptional (SpellsSupertype word) ts name) (hrest : acceptKeyword word rest = none) :
    Succeeds (supertype finish word what (ts ++ rest)) (· = name) rest := by
  unfold supertype
  cases h with
  | none =>
    rw [List.nil_append]
    simp only [hrest]
    exact .ok rfl
  | some h =>
    obtain ⟨hk, hname⟩ := h
    simp only [List.cons_append, List.nil_append, acceptKeyword_cons hk]
    exact .bind (typeName_reads hname).within fun _ _ hname => .ok (congrArg some hname)

theorem acceptKeyword_of_supertype {word word' : String} {name : Option String}
    (h : SpellsOptional (SpellsSupertype word) ts name) (hne : word ≠ word')
    (hrest : acceptKeyword word' rest = none) : acceptKeyword word' (ts ++ rest) = none := by
  cases h with
  | none => exact hrest
  | some h =>
    obtain ⟨hk, -⟩ := h
    exact acceptKeyword_cons_of_ne (isKeyword_of_ne hk hne)

theorem classRest_reads {p : Position} {id : NodeId} {word : Token} {d : ClassDecl}
    (h : SpellsClass (word :: ts) d) (hinput : input = ts ++ rest) :
    Succeeds (classRest finish p id input) (·.1.marked .none = d) rest := by
  cases h
  rename_i t opening closing ss is us superclass interface m ht hsuper hinterface hopen hm hclose _
  obtain rfl : input = t :: (ss ++ (is ++ opening :: (us ++ closing :: rest))) := by simp [hinput]
  have hbrace : ∀ {word}, acceptKeyword word (opening :: (us ++ closing :: rest)) = none :=
    acceptKeyword_cons_of_ne (isKeyword_of_kind (by simp [hopen]))
  unfold classRest
  refine .bind (expectName_reads ht) ?_
  rintro name _ rfl
  refine .bind (supertype_reads hsuper ?_).optionalWithin ?_
  · exact acceptKeyword_of_supertype hinterface (by decide) hbrace
  rintro superclass' _ rfl
  refine .bind (supertype_reads hinterface hbrace).optionalWithin ?_
  rintro interface' _ rfl
  refine .bind (expectSymbol_reads hopen).within fun _ _ _ => ?_
  refine .bind (hm.reads hclose rfl nofun) ?_
  rintro ⟨found, next⟩ hlt hfound
  obtain rfl : found.found = m := hfound.trans (by simp [Members.found, Members.append])
  exact .ok rfl

theorem SpellsSignature.startsWord {s : Signature} (h : SpellsSignature ts s) : StartsWord ts := by
  obtain ⟨haccess, hreturns, -, -, -⟩ := h
  exact startsWord_of_access haccess hreturns.startsWord

/-- The phrase is read as methods of an interface behind those that are read already. -/
theorem interfaceMethods_reads {methods : List Signature} (h : SpellsAll SpellsSignature ts methods)
    {bound : Nat} {done : List Signature} {id : NodeId} {closing : Token}
    {hlt : input.length < bound} (hclose : closing.kind = .symbol .rightBrace)
    (hinput : input = ts ++ closing :: rest) :
    Succeeds (interfaceMethods finish bound done id input hlt) (fun r =>
      r.1.map (Signature.marked .none) = done.reverse.map (Signature.marked .none) ++ methods)
      rest := by
  induction h generalizing done id input with
  | nil =>
    obtain rfl : input = closing :: rest := hinput
    rw [interfaceMethods]
    simp only [acceptSymbol_cons hclose]
    exact .ok (by simp)
  | @cons us more s ss h _ ih =>
    have hnone : acceptSymbol .rightBrace input = none := by
      obtain ⟨t, more', rfl, ht⟩ := h.startsWord
      rw [hinput]
      exact acceptSymbol_cons_of_ne (ht _)
    obtain ⟨haccess, hreturns, ht, hparams, hsemicolon⟩ := h
    rename_i as us ps t semicolon access returns params
    obtain rfl : input =
        as ++ (us ++ t :: (ps ++ semicolon :: (more ++ closing :: rest))) := by simp [hinput]
    have hno : NoAccess (us ++ t :: (ps ++ semicolon :: (more ++ closing :: rest))) := by
      obtain ⟨u, us, rfl, hvoid | hu⟩ := hreturns.starts
      · exact noAccess_of_isKeyword hvoid (by decide)
      · exact hu.noAccess
    obtain ⟨value, hlt', hmodifier, rfl⟩ := accessModifier_reads haccess hno
    rw [interfaceMethods]
    simp only [hnone]
    rw [hmodifier]
    refine .bind (hreturns.reads rfl (acceptSymbol_of_identifier ht)).behind fun _ _ hreturns => ?_
    refine .bind (expectName_reads ht).within fun _ _ hname => ?_
    refine .bind (hparams.reads rfl trivial).within fun _ _ hparams => ?_
    refine .bind (expectSymbol_reads hsemicolon).within fun _ _ _ => ?_
    exact Succeeds.imp (ih rfl) fun r hr => by simp [hr, hreturns, hname, hparams]

theorem interfaceRest_reads {p : Position} {id : NodeId} {word : Token} {d : InterfaceDecl}
    (h : SpellsInterface (word :: ts) d) (hinput : input = ts ++ rest) :
    Succeeds (interfaceRest finish p id input) (·.1.marked .none = d) rest := by
  cases h
  rename_i t opening closing us methods ht hopen hmethods hclose _
  obtain rfl : input = t :: opening :: (us ++ closing :: rest) := by simp [hinput]
  unfold interfaceRest
  refine .bind (expectName_reads ht) ?_
  rintro name _ rfl
  refine .bind (expectSymbol_reads hopen).within fun _ _ _ => ?_
  refine .bind (interfaceMethods_reads hmethods hclose rfl) ?_
  rintro ⟨found, next⟩ hlt hfound
  exact .ok (by simpa using hfound)

theorem SpellsKind.starts {d : TypeDecl} (h : SpellsKind ts d) : ∃ t more word, ts = t :: more ∧
    t.isKeyword word = true ∧ word ∈ ["class", "interface"] := by
  cases h with
  | class_ h =>
    obtain ⟨h, -⟩ := h
    exact ⟨_, _, _, rfl, h, by decide⟩
  | interface h =>
    obtain ⟨h, -⟩ := h
    exact ⟨_, _, _, rfl, h, by decide⟩

theorem SpellsKind.reads {p : Position} {id : NodeId} {d : TypeDecl} (h : SpellsKind ts d)
    (hinput : input = ts ++ rest) :
    Succeeds (typeDeclarationRest finish p id input) (·.1.marked .none = d) rest := by
  cases h with
  | class_ h =>
    have hclass := h
    obtain ⟨hword, -⟩ := h
    subst hinput
    unfold typeDeclarationRest
    simp only [List.cons_append, acceptKeyword_cons hword]
    refine .bind (classRest_reads hclass rfl).within ?_
    rintro ⟨d, next⟩ hlt hd
    exact .ok (congrArg TypeDecl.class_ hd)
  | interface h =>
    have hinterface := h
    obtain ⟨hword, -⟩ := h
    subst hinput
    have hclass : ∀ {word : Token}, word.isKeyword "interface" = true →
        word.isKeyword "class" = false := fun h => isKeyword_of_ne h (by decide)
    unfold typeDeclarationRest
    simp only [List.cons_append, acceptKeyword_cons_of_ne (hclass hword), acceptKeyword_cons hword]
    refine .bind (interfaceRest_reads hinterface rfl).within ?_
    rintro ⟨d, next⟩ hlt hd
    exact .ok (congrArg TypeDecl.interface hd)

theorem SpellsTypeDecl.reads {id : NodeId} {d : TypeDecl} (h : SpellsTypeDecl ts d)
    (hinput : input = ts ++ rest) :
    Succeeds (typeDeclaration finish id input) (·.1.marked .none = d) rest := by
  unfold typeDeclaration
  cases h with
  | unmarked h =>
    have hpublic : acceptKeyword "public" input = none := by
      obtain ⟨t, more, word, rfl, ht, hword⟩ := h.starts
      rw [hinput]
      refine acceptKeyword_cons_of_ne (isKeyword_of_ne ht ?_)
      rintro rfl
      revert hword
      decide
    simp only [hpublic]
    exact h.reads hinput
  | public_ hword h =>
    subst hinput
    simp only [List.cons_append, acceptKeyword_cons hword]
    exact (h.reads rfl).within

theorem SpellsTypeDecl.ne_nil {d : TypeDecl} (h : SpellsTypeDecl ts d) : ts ≠ [] := by
  cases h with
  | unmarked h =>
    obtain ⟨t, more, word, rfl, -, -⟩ := h.starts
    exact nofun
  | public_ _ _ => exact nofun

/-- The phrase is read as declarations behind those that are read already. -/
theorem declarations_reads (finish : Position) (done : List TypeDecl) (id : NodeId)
    {ds : List TypeDecl} (h : SpellsAll SpellsTypeDecl ts ds) : ∃ program next,
      declarations finish done id ts = .ok (program, next) ∧
      program.declarations.map (TypeDecl.marked .none) =
        done.reverse.map (TypeDecl.marked .none) ++ ds := by
  induction h generalizing done id with
  | nil =>
    rw [declarations]
    exact ⟨_, _, rfl, by simp⟩
  | @cons us more d ds h _ ih =>
    have hempty : (us ++ more).isEmpty = false := by
      obtain ⟨t, us, rfl⟩ := List.exists_cons_of_ne_nil h.ne_nil
      rfl
    have hread : Succeeds (typeDeclaration finish id (us ++ more)) (·.1.marked .none = d) more :=
      h.reads rfl
    obtain ⟨⟨d', next⟩, hlt, hd, hd'⟩ := hread
    obtain ⟨program, last, hprogram, hdeclarations⟩ := ih (d' :: done) next
    refine ⟨program, last, ?_, by simpa [hdeclarations] using hd'⟩
    rw [declarations]
    simp only [hempty, Bool.false_eq_true, ↓reduceIte, hd]
    exact hprogram

end Javelet.Grammar

namespace Javelet

open Grammar

/-- The programs that a token list is read as are those that it spells, wherever their nodes stand
and however they are numbered. -/
theorem parse_eq_ok_iff (ts : List Token) (p : Program) :
    (∃ p', parse ts = .ok p' ∧ p'.marked .none = p.marked .none) ↔
      SpellsProgram ts (p.marked .none) := by
  constructor
  · rintro ⟨p', hp', hmarked⟩
    rw [← hmarked]
    exact spellsProgram_of_parse hp'
  · intro h
    obtain ⟨program, next, hprogram, hdeclarations⟩ := declarations_reads (finishOf ts) [] 0 h
    refine ⟨program, ?_, ?_⟩
    · unfold parse
      rw [hprogram]
      rfl
    · simpa using hdeclarations

end Javelet
