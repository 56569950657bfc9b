import Javelet.Grammar.Type
import Javelet.Proofs.Syntax.Marks

/-!
# Readers and positions

A reader looks at the kinds and the texts of tokens, and copies their positions. So if the same
words stand at other positions, it reads the same with these positions instead, or it stops at the
fault that it found before, where this stands now. `Moves` says this of two outcomes; there is a
rule for each way of putting readers together.
-/
namespace Javelet

/-- A token with the same word at its new position. -/
def Token.moved (f : Position → Position) (t : Token) : Token := ⟨t.kind, t.text, f t.position⟩

/-- What is told at a new position. -/
def Diagnostic.moved (f : Position → Position) (d : Diagnostic) : Diagnostic :=
  { d with position := f d.position }

/-- Tokens at their new positions. -/
abbrev movedTokens (f : Position → Position) (ts : List Token) : List Token := ts.map (Token.moved f)

namespace Grammar

variable {f : Position → Position}

/-- The second reader gives the value of the first one with new marks, in front of the same tokens
at new positions, or both stop with what is told in the same way at its new position. -/
inductive Moves (f : Position → Position) {α : Type} (mark : α → α) {bound bound' : Nat} :
    Outcome α bound → Outcome α bound' → Prop
  | ok {p : Parsed α bound} {p' : Parsed α bound'} : p'.value = mark p.value →
      p'.rest = movedTokens f p.rest → Moves f mark (.ok p) (.ok p')
  | error {l l' : Located Fault} : l'.diagnostic = l.diagnostic.moved f →
      Moves f mark (.error l) (.error l')

/-- A mark for a value that comes with the next free number. -/
def numbered {α : Type} (mark : α → α) (r : α × NodeId) : α × NodeId := (mark r.1, r.2)

namespace Moves

variable {α β : Type} {mark : α → α} {mark' : β → β} {bound bound' inner inner' : Nat}
  {o : Outcome α bound} {o' : Outcome α bound'} {ts : List Token}

theorem fault {reason : Fault} {p : Position} :
    Moves f mark (.error ⟨reason, p⟩ : Outcome α bound) (.error ⟨reason, f p⟩ : Outcome α bound') :=
  .error rfl

theorem bind {k : Parsed α bound → Outcome β inner} {k' : Parsed α bound' → Outcome β inner'}
    (h : Moves f mark o o') (hk : ∀ value rest hlt hlt', Moves f mark' (k ⟨value, rest, hlt⟩)
      (k' ⟨mark value, movedTokens f rest, hlt'⟩)) : Moves f mark' (o >>= k) (o' >>= k') := by
  cases h with
  | @ok p p' hvalue hrest =>
    obtain ⟨value, rest, hlt⟩ := p
    obtain ⟨value', rest', hlt'⟩ := p'
    cases hvalue
    cases hrest
    exact hk _ _ _ _
  | error h => exact .error h

theorem ok_numbered {a a' : α} {next : NodeId} {hlt : ts.length < bound}
    {hlt' : (movedTokens f ts).length < bound'} (h : a' = mark a) :
    Moves f (numbered mark) (.ok ⟨(a, next), ts, hlt⟩)
      (.ok ⟨(a', next), movedTokens f ts, hlt'⟩) := by
  rw [h]
  exact .ok rfl rfl

theorem bind_numbered {o : Outcome (α × NodeId) bound} {o' : Outcome (α × NodeId) bound'}
    {k : Parsed (α × NodeId) bound → Outcome β inner}
    {k' : Parsed (α × NodeId) bound' → Outcome β inner'} (h : Moves f (numbered mark) o o')
    (hk : ∀ value next rest hlt hlt', Moves f mark' (k ⟨(value, next), rest, hlt⟩)
      (k' ⟨(mark value, next), movedTokens f rest, hlt'⟩)) : Moves f mark' (o >>= k) (o' >>= k') :=
  h.bind fun r rest hlt hlt' => hk r.1 r.2 rest hlt hlt'

/-- What stands behind a fault is not read. -/
theorem fault_bind {γ : Type} {reason : Fault} {p : Position} {k : γ → Outcome α bound}
    {k' : γ → Outcome α bound'} :
    Moves f mark ((.error ⟨reason, p⟩ : Except (Located Fault) γ) >>= k)
      ((.error ⟨reason, f p⟩ : Except (Located Fault) γ) >>= k') :=
  fault

theorem map {g : Parsed α bound → Parsed α inner} {g' : Parsed α bound' → Parsed α inner'}
    (h : Moves f mark o o') (hg : ∀ p, (g p).value = p.value ∧ (g p).rest = p.rest)
    (hg' : ∀ p, (g' p).value = p.value ∧ (g' p).rest = p.rest) :
    Moves f mark (o.map g) (o'.map g') := by
  cases h with
  | @ok p p' hvalue hrest =>
    refine .ok ?_ ?_
    · rw [(hg p).1, (hg' p').1]
      exact hvalue
    · rw [(hg p).2, (hg' p').2]
      exact hrest
  | error h => exact .error h

theorem within {hlt : ts.length < bound} {hlt' : (movedTokens f ts).length < bound'}
    {o : Outcome α ts.length} {o' : Outcome α (movedTokens f ts).length} (h : Moves f mark o o') :
    Moves f mark (within hlt o) (Grammar.within hlt' o') :=
  h.map (fun _ => ⟨rfl, rfl⟩) fun _ => ⟨rfl, rfl⟩

theorem optionalWithin {hlt : ts.length < bound} {hlt' : (movedTokens f ts).length < bound'}
    {o : Outcome α (ts.length + 1)} {o' : Outcome α ((movedTokens f ts).length + 1)}
    (h : Moves f mark o o') :
    Moves f mark (optionalWithin hlt o) (Grammar.optionalWithin hlt' o') :=
  h.map (fun _ => ⟨rfl, rfl⟩) fun _ => ⟨rfl, rfl⟩

theorem behind {rest : List Token} {hlt : rest.length < ts.length + 1}
    {hlt' : (movedTokens f rest).length < (movedTokens f ts).length + 1}
    {o : Outcome α rest.length} {o' : Outcome α (movedTokens f rest).length}
    (h : Moves f mark o o') : Moves f mark (behind hlt o) (Grammar.behind hlt' o') :=
  h.map (fun _ => ⟨rfl, rfl⟩) fun _ => ⟨rfl, rfl⟩

theorem ite {c : Prop} [Decidable c] {x y : Outcome α bound} {x' y' : Outcome α bound'}
    (hx : Moves f mark x x') (hy : Moves f mark y y') :
    Moves f mark (if c then x else y) (if c then x' else y') := by
  split
  · exact hx
  · exact hy

/-- A refusal tells the word that is refused. -/
theorem refuse {finish : Position} {code : Code} {what : String} {hint : Option String} :
    Moves f mark (refuse finish code what hint ts : Outcome α bound)
      (Grammar.refuse (f finish) code what hint (movedTokens f ts) : Outcome α bound') := by
  cases ts with
  | nil => exact .error rfl
  | cons t rest => exact .error rfl

end Moves

/-! ## Tokens -/

section Tokens

variable (f) (ts : List Token)

@[simp] theorem isEmpty_moved : (movedTokens f ts).isEmpty = ts.isEmpty := by
  cases ts <;> rfl

@[simp] theorem tail_moved : (movedTokens f ts).tail = movedTokens f ts.tail :=
  List.map_tail.symm

@[simp] theorem here_moved (finish : Position) :
    here (f finish) (movedTokens f ts) = f (here finish ts) := by
  cases ts <;> rfl

/-- A test looks at words only. -/
theorem any_head?_moved (test : Token → Bool) (htest : ∀ t, test (t.moved f) = test t) :
    (movedTokens f ts).head?.any test = ts.head?.any test := by
  cases ts with
  | nil => rfl
  | cons t rest => exact htest t

@[simp] theorem atSymbol_moved (s : Symbol) : atSymbol s (movedTokens f ts) = atSymbol s ts :=
  any_head?_moved f ts _ fun _ => rfl

@[simp] theorem atKeyword_moved (word : String) :
    atKeyword word (movedTokens f ts) = atKeyword word ts :=
  any_head?_moved f ts _ fun _ => rfl

/-- The first word is used up in both lists or in none. -/
theorem accept_moved (test : Token → Bool) (htest : ∀ t, test (t.moved f) = test t) :
    (accept test ts = none ∧ accept test (movedTokens f ts) = none) ∨
      ∃ t rest hlt hlt', accept test ts = some ⟨t, rest, hlt⟩ ∧
        accept test (movedTokens f ts) = some ⟨t.moved f, movedTokens f rest, hlt'⟩ := by
  cases ts with
  | nil => exact .inl ⟨rfl, rfl⟩
  | cons t rest =>
    have hmoved : accept test (movedTokens f (t :: rest)) =
        if test (t.moved f) then some ⟨t.moved f, movedTokens f rest, shorter_cons _ _⟩ else none :=
      rfl
    rw [hmoved, htest, accept]
    cases test t with
    | false => exact .inl ⟨rfl, rfl⟩
    | true => exact .inr ⟨t, rest, shorter_cons t rest, shorter_cons _ _, rfl, rfl⟩

theorem acceptSymbol_moved (s : Symbol) :
    (acceptSymbol s ts = none ∧ acceptSymbol s (movedTokens f ts) = none) ∨
      ∃ t rest hlt hlt', acceptSymbol s ts = some ⟨t, rest, hlt⟩ ∧
        acceptSymbol s (movedTokens f ts) = some ⟨t.moved f, movedTokens f rest, hlt'⟩ :=
  accept_moved f ts _ fun _ => rfl

theorem acceptKeyword_moved (word : String) :
    (acceptKeyword word ts = none ∧ acceptKeyword word (movedTokens f ts) = none) ∨
      ∃ t rest hlt hlt', acceptKeyword word ts = some ⟨t, rest, hlt⟩ ∧
        acceptKeyword word (movedTokens f ts) = some ⟨t.moved f, movedTokens f rest, hlt'⟩ :=
  accept_moved f ts _ fun _ => rfl

variable {f ts} {finish : Position}

theorem expectSymbol_moves (s : Symbol) (what : String) :
    Moves f (Token.moved f) (expectSymbol finish s what ts)
      (expectSymbol (f finish) s what (movedTokens f ts)) := by
  unfold expectSymbol
  rcases acceptSymbol_moved f ts s with ⟨e, e'⟩ | ⟨t, rest, _, _, e, e'⟩
  · rw [e, e']
    exact .refuse
  · rw [e, e']
    exact .ok rfl rfl

theorem expectKeyword_moves (word what : String) :
    Moves f (Token.moved f) (expectKeyword finish word what ts)
      (expectKeyword (f finish) word what (movedTokens f ts)) := by
  unfold expectKeyword
  rcases acceptKeyword_moved f ts word with ⟨e, e'⟩ | ⟨t, rest, _, _, e, e'⟩
  · rw [e, e']
    exact .refuse
  · rw [e, e']
    exact .ok rfl rfl

theorem expectName_moves (what : String) : Moves f id (expectName finish what ts)
    (expectName (f finish) what (movedTokens f ts)) := by
  unfold expectName
  rcases accept_moved f ts (fun t => t.kind == .identifier) fun _ => rfl with
    ⟨e, e'⟩ | ⟨t, rest, _, _, e, e'⟩
  · rw [e, e']
    exact .refuse
  · rw [e, e']
    exact .ok rfl rfl

/-! ## Types -/

theorem typeName_moves (what : String) :
    Moves f id (typeName finish what ts) (typeName (f finish) what (movedTokens f ts)) := by
  unfold typeName
  rcases accept_moved f ts isTypeName fun _ => rfl with ⟨e, e'⟩ | ⟨t, rest, _, _, e, e'⟩
  · rw [e, e']
    exact .refuse
  · rw [e, e']
    exact .ok rfl rfl

theorem type_moves : Moves f id (type finish ts) (type (f finish) (movedTokens f ts)) := by
  unfold type
  refine .bind (typeName_moves _) fun name rest _ _ => ?_
  dsimp only
  rcases acceptSymbol_moved f rest .leftBracket with ⟨e, e'⟩ | ⟨t, more, _, _, e, e'⟩
  · rw [e, e']
    exact .ok rfl rfl
  · rw [e, e']
    exact .bind (expectSymbol_moves _ _).within fun _ _ _ _ => .ok rfl rfl

theorem returnType_moves :
    Moves f id (returnType finish ts) (returnType (f finish) (movedTokens f ts)) := by
  unfold returnType
  rcases acceptKeyword_moved f ts "void" with ⟨e, e'⟩ | ⟨t, rest, _, _, e, e'⟩
  · rw [e, e']
    exact type_moves
  · rw [e, e']
    exact .ok rfl rfl

variable (f ts)

@[simp] theorem atDeclaration_moved : atDeclaration (movedTokens f ts) = atDeclaration ts := by
  cases ts with
  | nil => rfl
  | cons t rest =>
    rw [movedTokens, List.map_cons, atDeclaration, atDeclaration, atSymbol_moved, tail_moved,
      atSymbol_moved, any_head?_moved f rest (fun u => u.kind == .identifier) fun _ => rfl]
    rfl

theorem accessModifier_moved : (accessModifier (movedTokens f ts)).value = (accessModifier ts).value ∧
    (accessModifier (movedTokens f ts)).rest = movedTokens f (accessModifier ts).rest := by
  unfold accessModifier
  rcases accept_moved f ts (fun t => t.kind == .keyword && (Access.ofKeyword? t.text).isSome)
    fun _ => rfl with ⟨e, e'⟩ | ⟨t, rest, _, _, e, e'⟩
  · rw [e, e']
    exact ⟨rfl, rfl⟩
  · rw [e, e']
    exact ⟨rfl, rfl⟩

end Tokens

end Grammar

end Javelet
