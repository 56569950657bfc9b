import Javelet.Grammar.Declaration
import Javelet.Proofs.Phrases.Statement

/-!
# Phrases that spell declarations

The grammar of members, of types and of programs. A name in front of parameters is that of a
constructor exactly if it is the name of the class, since every other member has its type in front
of its name. The entry point is the only static member, and there is at most one of it.
-/
namespace Javelet.Grammar

/-- An access modifier. Without one a member is public. -/
inductive SpellsAccess : List Token → Access → Prop
  | unmarked : SpellsAccess [] .public_
  | public_ {word : Token} : word.isKeyword "public" → SpellsAccess [word] .public_
  | protected_ {word : Token} : word.isKeyword "protected" → SpellsAccess [word] .protected_
  | private_ {word : Token} : word.isKeyword "private" → SpellsAccess [word] .private_

inductive SpellsReturnType : List Token → Ty → Prop
  | void {word : Token} : word.isKeyword "void" → SpellsReturnType [word] .void
  | type {ts : List Token} {type : Ty} : SpellsType ts type → SpellsReturnType ts type

/-! ## Parameters -/

inductive SpellsParameter : List Token → Parameter → Prop
  | mk {ts : List Token} {type : Ty} {t : Token} : SpellsType ts type → t.kind = .identifier →
      SpellsParameter (ts ++ [t]) ⟨.start, type, t.text⟩

/-- Parameters with commas between them. -/
inductive SpellsParameterSeries : List Token → List Parameter → Prop
  | one {ts : List Token} {p : Parameter} : SpellsParameter ts p → SpellsParameterSeries ts [p]
  | more {ts rest : List Token} {comma : Token} {p : Parameter} {ps : List Parameter} :
      SpellsParameter ts p → comma.kind = .symbol .comma → SpellsParameterSeries rest ps →
      SpellsParameterSeries (ts ++ comma :: rest) (p :: ps)

/-- Parameters in parentheses. -/
inductive SpellsParameters : List Token → List Parameter → Prop
  | none {opening closing : Token} : opening.kind = .symbol .leftParen →
      closing.kind = .symbol .rightParen → SpellsParameters [opening, closing] []
  | some {opening closing : Token} {ts : List Token} {params : List Parameter} :
      opening.kind = .symbol .leftParen → SpellsParameterSeries ts params →
      closing.kind = .symbol .rightParen → SpellsParameters (opening :: (ts ++ [closing])) params

/-! ## Members -/

/-- Properties have values, so they are not of type `void`. -/
inductive SpellsProperty : List Token → Property → Prop
  | mk {as ts : List Token} {semicolon : Token} {access : Access} {v : Variable} :
      SpellsAccess as access → SpellsVariable ts v → v.type ≠ .void →
      semicolon.kind = .symbol .semicolon →
      SpellsProperty (as ++ (ts ++ [semicolon])) ⟨access, v⟩

inductive SpellsMethod : List Token → Method → Prop
  | mk {as ts ps bs : List Token} {t : Token} {access : Access} {returns : Ty}
      {params : List Parameter} {body : Block} : SpellsAccess as access →
      SpellsReturnType ts returns → t.kind = .identifier → SpellsParameters ps params →
      SpellsBlock .none bs body →
      SpellsMethod (as ++ (ts ++ t :: (ps ++ bs)))
        ⟨⟨0, .method, access, returns, t.text, params, .start⟩, body⟩

/-- A constructor bears the name of its class. -/
inductive SpellsConstructor : List Token → Method → Prop
  | mk {as ps bs : List Token} {t : Token} {access : Access} {params : List Parameter}
      {body : Block} : SpellsAccess as access → t.kind = .identifier →
      SpellsParameters ps params → SpellsBlock .none bs body →
      SpellsConstructor (as ++ t :: (ps ++ bs))
        ⟨⟨0, .constructor, access, .void, t.text, params, .start⟩, body⟩

/-- The entry point is public, with or without the modifier, and has an array of strings. -/
inductive SpellsMain : List Token → Method → Prop
  | mk {as ps bs : List Token} {static void t : Token} {name : String} {body : Block} :
      SpellsAccess as .public_ → static.isKeyword "static" → void.isKeyword "void" →
      t.kind = .identifier → t.text = "main" →
      SpellsParameters ps [⟨.start, ⟨"String", true⟩, name⟩] → SpellsBlock .none bs body →
      SpellsMain (as ++ static :: void :: t :: (ps ++ bs))
        ⟨⟨0, .main, .public_, .void, "main", [⟨.start, ⟨"String", true⟩, name⟩], .start⟩, body⟩

/-- The members of a class, those of each kind in the order in which they stand. -/
inductive SpellsMembers (className : String) : List Token → Members → Prop
  | nil : SpellsMembers className [] ⟨[], [], [], none⟩
  | property {ts rest : List Token} {d : Property} {m : Members} : SpellsProperty ts d →
      SpellsMembers className rest m →
      SpellsMembers className (ts ++ rest) { m with properties := d :: m.properties }
  | constructor {ts rest : List Token} {d : Method} {m : Members} : SpellsConstructor ts d →
      d.signature.name = className → SpellsMembers className rest m →
      SpellsMembers className (ts ++ rest) { m with constructors := d :: m.constructors }
  | method {ts rest : List Token} {d : Method} {m : Members} : SpellsMethod ts d →
      SpellsMembers className rest m →
      SpellsMembers className (ts ++ rest) { m with methods := d :: m.methods }
  | main {ts rest : List Token} {d : Method} {m : Members} : SpellsMain ts d → m.main = none →
      SpellsMembers className rest m →
      SpellsMembers className (ts ++ rest) { m with main := some d }

/-! ## Types -/

/-- The name of a supertype behind a keyword. -/
inductive SpellsSupertype (word : String) : List Token → String → Prop
  | mk {k t : Token} {name : String} : k.isKeyword word → SpellsTypeName t name →
      SpellsSupertype word [k, t] name

inductive SpellsClass : List Token → ClassDecl → Prop
  | mk {word t opening closing : Token} {ss is ts : List Token} {superclass interface : Option String}
      {m : Members} : word.isKeyword "class" → t.kind = .identifier →
      SpellsOptional (SpellsSupertype "extends") ss superclass →
      SpellsOptional (SpellsSupertype "implements") is interface →
      opening.kind = .symbol .leftBrace → SpellsMembers t.text ts m →
      closing.kind = .symbol .rightBrace →
      SpellsClass (word :: t :: (ss ++ (is ++ opening :: (ts ++ [closing]))))
        ⟨0, t.text, superclass, interface, m.properties, m.constructors, m.methods, m.main, .start⟩

inductive SpellsSignature : List Token → Signature → Prop
  | mk {as ts ps : List Token} {t semicolon : Token} {access : Access} {returns : Ty}
      {params : List Parameter} : SpellsAccess as access → SpellsReturnType ts returns →
      t.kind = .identifier → SpellsParameters ps params → semicolon.kind = .symbol .semicolon →
      SpellsSignature (as ++ (ts ++ t :: (ps ++ [semicolon])))
        ⟨0, .method, access, returns, t.text, params, .start⟩

/-- Phrases that follow each other. -/
inductive SpellsAll {α : Type} (Phrase : List Token → α → Prop) : List Token → List α → Prop
  | nil : SpellsAll Phrase [] []
  | cons {ts rest : List Token} {value : α} {values : List α} : Phrase ts value →
      SpellsAll Phrase rest values → SpellsAll Phrase (ts ++ rest) (value :: values)

inductive SpellsInterface : List Token → InterfaceDecl → Prop
  | mk {word t opening closing : Token} {ts : List Token} {methods : List Signature} :
      word.isKeyword "interface" → t.kind = .identifier → opening.kind = .symbol .leftBrace →
      SpellsAll SpellsSignature ts methods → closing.kind = .symbol .rightBrace →
      SpellsInterface (word :: t :: opening :: (ts ++ [closing])) ⟨0, t.text, methods, .start⟩

/-- A class or an interface. -/
inductive SpellsKind : List Token → TypeDecl → Prop
  | class_ {ts : List Token} {d : ClassDecl} : SpellsClass ts d → SpellsKind ts (.class_ d)
  | interface {ts : List Token} {d : InterfaceDecl} : SpellsInterface ts d →
      SpellsKind ts (.interface d)

/-- The word `public` may stand in front of the declaration of a type. -/
inductive SpellsTypeDecl : List Token → TypeDecl → Prop
  | unmarked {ts : List Token} {d : TypeDecl} : SpellsKind ts d → SpellsTypeDecl ts d
  | public_ {word : Token} {ts : List Token} {d : TypeDecl} : word.isKeyword "public" →
      SpellsKind ts d → SpellsTypeDecl (word :: ts) d

/-- The declarations of a program. -/
def SpellsProgram (ts : List Token) (p : Program) : Prop :=
  SpellsAll SpellsTypeDecl ts p.declarations

end Javelet.Grammar
