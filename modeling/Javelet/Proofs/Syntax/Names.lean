import Javelet.Proofs.Syntax.Induction
import Javelet.Syntax.Declaration
import Javelet.Syntax.Ty

/-!
# Names in texts

Names stand side by side in overload keys, in descriptors and in instructions. They can be told
apart there because they hold no character that separates them. So an overload key tells the name
and the types of the parameters.
-/
namespace Javelet

/-- The characters that end a line. -/
def lineBreaks : List Char :=
  ['\n', '\r', '\x0b', '\x0c', '\u0085', '\u2028', '\u2029']

/-- The characters that end a name where it stands between others, and those that mark an array or
a name that is not written in a program. -/
def separators : List Char := [' ', ',', ';', '(', '[', '<', '\t'] ++ lineBreaks

/-- A name that is not empty and holds no separator. -/
structure PlainName (name : String) : Prop where
  nonempty : name ≠ ""
  apart : (name.toList.all fun c => !separators.contains c) = true

theorem PlainName.not_mem {name : String} (h : PlainName name) {c : Char}
    (hc : separators.contains c = true) : c ∉ name.toList := by
  intro hmem
  have happ := List.all_eq_true.1 h.apart c hmem
  rw [hc] at happ
  cases happ

/-- A name that a value can have as its type. No package stands in front of it. -/
structure ValueName (name : String) : Prop extends PlainName name where
  ne_void : name ≠ "void"
  unqualified : '/' ∉ name.toList

theorem valueName_of_mem {name : String}
    (h : name ∈ ["int", "char", "boolean", "String", "null"]) : ValueName name := by
  simp only [List.mem_cons, List.not_mem_nil, or_false] at h
  rcases h with rfl | rfl | rfl | rfl | rfl
  all_goals exact ⟨⟨by decide, by decide⟩, by decide, by decide⟩

namespace Ty

/-- The types of values: neither `void` nor an array over it. -/
def IsValue (t : Ty) : Prop := ValueName t.name

/-- The types of results. -/
def IsResult (t : Ty) : Prop := t = .void ∨ t.IsValue

theorem isValue_int : int.IsValue := valueName_of_mem (by decide)
theorem isValue_char : char.IsValue := valueName_of_mem (by decide)
theorem isValue_boolean : boolean.IsValue := valueName_of_mem (by decide)
theorem isValue_string : string.IsValue := valueName_of_mem (by decide)
theorem isValue_null : null.IsValue := valueName_of_mem (by decide)

theorem isVoid_iff {t : Ty} : t.isVoid = true ↔ t = void := by
  obtain ⟨name, isArray⟩ := t
  simp [isVoid, void, plain]

theorem IsValue.isVoid {t : Ty} (h : t.IsValue) : t.isVoid = false := by
  simp [Ty.isVoid, h.ne_void]

theorem IsResult.isValue {t : Ty} (h : t.IsResult) (hv : t.isVoid = false) : t.IsValue := by
  rcases h with rfl | h
  · cases hv
  · exact h

end Ty

/-! ## Overload keys -/

theorem text_ne_nil {t : Ty} (h : t.IsValue) : t.text.toList ≠ [] := by
  have hne : t.name.toList ≠ [] := by simpa using h.nonempty
  unfold Ty.text
  split
  · simp [hne]
  · exact hne

theorem comma_not_mem_text {t : Ty} (h : t.IsValue) : ',' ∉ t.text.toList := by
  have hname : ',' ∉ t.name.toList := h.not_mem (by decide)
  unfold Ty.text
  split
  · simp [hname]
  · exact hname

/-- The types in an overload key, one after the other. -/
def paramsText (params : List Ty) : List Char :=
  [',', ' '].intercalate (params.map fun t => t.text.toList)

theorem paramsText_cons_cons (t t' : Ty) (rest : List Ty) :
    paramsText (t :: t' :: rest) = t.text.toList ++ [',', ' '] ++ paramsText (t' :: rest) := by
  simp [paramsText, List.intercalate]

theorem paramsText_singleton (t : Ty) : paramsText [t] = t.text.toList := by
  simp [paramsText, List.intercalate]

theorem paramsText_ne_nil {t : Ty} {rest : List Ty} (h : t.IsValue) :
    paramsText (t :: rest) ≠ [] := by
  have ht := text_ne_nil h
  cases rest with
  | nil => simpa [paramsText, List.intercalate] using ht
  | cons t' rest => simp [paramsText_cons_cons]

/-- A type is told by its text: brackets stand behind the element type of an array only. -/
theorem Ty.text_inj {t t' : Ty} (h : t.IsValue) (h' : t'.IsValue)
    (ht : t.text.toList = t'.text.toList) : t = t' := by
  obtain ⟨name, isArray⟩ := t
  obtain ⟨name', isArray'⟩ := t'
  have hopen : '[' ∉ name.toList := h.not_mem (by decide)
  have hopen' : '[' ∉ name'.toList := h'.not_mem (by decide)
  cases isArray <;> cases isArray' <;>
    simp only [Ty.text, Bool.false_eq_true, if_false, if_true, String.toList_append] at ht
  · rw [String.toList_inj.1 ht]
  · exact (hopen (by simp [ht])).elim
  · exact (hopen' (by simp [← ht])).elim
  · rw [String.toList_inj.1 (List.append_cancel_right ht)]

/-- A text ends at the first character that it does not hold. -/
theorem append_cons_inj {d : Char} {xs xs' rest rest' : List Char} (h : d ∉ xs) (h' : d ∉ xs')
    (heq : xs ++ d :: rest = xs' ++ d :: rest') : xs = xs' ∧ rest = rest' := by
  induction xs generalizing xs' with
  | nil =>
    cases xs' with
    | nil => exact ⟨rfl, (List.cons.inj heq).2⟩
    | cons c cs => exact (h' (List.mem_cons.2 (.inl (List.cons.inj heq).1))).elim
  | cons c cs ih =>
    cases xs' with
    | nil => exact (h (List.mem_cons.2 (.inl (List.cons.inj heq).1.symm))).elim
    | cons c' cs' =>
      obtain ⟨rfl, hrest⟩ := List.cons.inj heq
      rw [List.mem_cons, not_or] at h h'
      obtain ⟨rfl, rfl⟩ := ih h.2 h'.2 hrest
      exact ⟨rfl, rfl⟩

/-- The types in a key can be read back: no type holds the comma that stands between two. -/
theorem paramsText_inj {params args : List Ty} (hp : ∀ t ∈ params, t.IsValue)
    (ha : ∀ t ∈ args, t.IsValue) (h : paramsText params = paramsText args) : params = args := by
  induction params generalizing args with
  | nil =>
    cases args with
    | nil => rfl
    | cons t rest => exact (paramsText_ne_nil (ha t (List.mem_cons_self ..)) h.symm).elim
  | cons t rest ih =>
    cases args with
    | nil => exact (paramsText_ne_nil (hp t (List.mem_cons_self ..)) h).elim
    | cons t' rest' =>
      rw [List.forall_mem_cons] at hp ha
      have hcomma := comma_not_mem_text hp.1
      have hcomma' := comma_not_mem_text ha.1
      cases rest with
      | nil =>
        cases rest' with
        | nil =>
          rw [paramsText_singleton, paramsText_singleton] at h
          rw [Ty.text_inj hp.1 ha.1 h]
        | cons u' us' =>
          rw [paramsText_singleton, paramsText_cons_cons] at h
          exact (hcomma (by simp [h])).elim
      | cons u us =>
        cases rest' with
        | nil =>
          rw [paramsText_singleton, paramsText_cons_cons] at h
          exact (hcomma' (by simp [← h])).elim
        | cons u' us' =>
          rw [paramsText_cons_cons, paramsText_cons_cons, List.append_assoc,
            List.append_assoc] at h
          obtain ⟨htext, hrest⟩ := append_cons_inj hcomma hcomma' h
          rw [Ty.text_inj hp.1 ha.1 htext, ih hp.2 ha.2 (List.cons.inj hrest).2]

/-- Keys that are equal have the same name and the same types of parameters. -/
theorem signatureText_inj {name name' : String} {params args : List Ty}
    (hn : PlainName name) (hn' : PlainName name') (hp : ∀ t ∈ params, t.IsValue)
    (ha : ∀ t ∈ args, t.IsValue) (h : signatureText name params = signatureText name' args) :
    name = name' ∧ params = args := by
  have hkey : ∀ n ts, (signatureText n ts).toList = n.toList ++ '(' :: (paramsText ts ++ [')']) := by
    intro n ts
    simp [signatureText, paramsText, String.toList_intercalate, Function.comp_def]
  have hl := congrArg String.toList h
  rw [hkey, hkey] at hl
  obtain ⟨hname, hparams⟩ := append_cons_inj (hn.not_mem (by decide)) (hn'.not_mem (by decide)) hl
  exact ⟨String.toList_inj.1 hname, paramsText_inj hp ha (List.append_cancel_right hparams)⟩

/-! ## Well-named programs

In a well-named program every type that is written is the type of a value, or `void` where a
result is declared, and every declared name is plain.
-/

/-- The element types in an expression are types of values. -/
inductive Expr.WellNamed : Expr → Prop
  | literal {p : Position} {value : Literal} : WellNamed (.literal p value)
  | binary {op : BinaryOp} {left right : Expr} : WellNamed left → WellNamed right →
      WellNamed (.binary op left right)
  | access {head : Head} {links : List Link} : (∀ e ∈ head.operands, WellNamed e) →
      (∀ l ∈ links, ∀ e ∈ Link.operands l, WellNamed e) → WellNamed (.access (.mk head links))
  | newObject {p : Position} {className : String} {args : List Expr} :
      (∀ e ∈ args, WellNamed e) → WellNamed (.newObject p className args)
  | newArray {p : Position} {element : String} {length : Expr} : ValueName element →
      WellNamed length → WellNamed (.newArray p element length)

def Chain.WellNamed (c : Chain) : Prop := (Expr.access c).WellNamed

structure Variable.WellNamed (v : Variable) : Prop where
  type : v.type.IsValue
  value : ∀ e ∈ v.value, e.WellNamed

structure Assignment.WellNamed (a : Assignment) : Prop where
  target : a.target.WellNamed
  value : a.value.WellNamed

def ForInit.WellNamed : ForInit → Prop
  | declaration v => v.WellNamed
  | assignment a => a.WellNamed

def Action.WellNamed : Action → Prop
  | assignment a => a.WellNamed
  | call c => c.WellNamed

def Jump.WellNamed : Jump → Prop
  | return_ value => ∀ e ∈ value, e.WellNamed
  | break_ => True
  | continue_ => True

/-- The types of variables and the element types in a statement are types of values. -/
inductive Statement.WellNamed : Statement → Prop
  | block {b : Block} : (∀ s ∈ b.statements, WellNamed s) → WellNamed (.block b)
  | conditional {p : Position} {e : Expr} {body : Statement} {otherwise : Option Statement} :
      e.WellNamed → WellNamed body → (∀ s ∈ otherwise, WellNamed s) →
      WellNamed (.conditional p e body otherwise)
  | whileLoop {p : Position} {e : Expr} {body : Statement} : e.WellNamed → WellNamed body →
      WellNamed (.whileLoop p e body)
  | forLoop {p : Position} {id : NodeId} {init : Option ForInit} {e : Option Expr}
      {update : Option Action} {body : Statement} : (∀ i ∈ init, i.WellNamed) →
      (∀ e' ∈ e, e'.WellNamed) → (∀ a ∈ update, a.WellNamed) → WellNamed body →
      WellNamed (.forLoop p id init e update body)
  | switch {p : Position} {id : NodeId} {e : Expr} {cases : List Case} {default_ : Option Block} :
      e.WellNamed → (∀ c ∈ cases, ∀ s ∈ (Case.body c).statements, WellNamed s) →
      (∀ b ∈ default_, ∀ s ∈ Block.statements b, WellNamed s) →
      WellNamed (.switch p id e cases default_)
  | jump {p : Position} {j : Jump} : j.WellNamed → WellNamed (.jump p j)
  | action {a : Action} : a.WellNamed → WellNamed (.action a)
  | declaration {v : Variable} : v.WellNamed → WellNamed (.declaration v)

def Block.WellNamed (b : Block) : Prop := ∀ s ∈ b.statements, s.WellNamed

structure Signature.WellNamed (s : Signature) : Prop where
  name : PlainName s.name
  params : ∀ p ∈ s.params, p.type.IsValue

theorem Signature.WellNamed.paramTypes {s : Signature} (h : s.WellNamed) :
    ∀ t ∈ s.paramTypes, t.IsValue :=
  List.forall_mem_map.2 h.params

/-- Headers with the same key have the same name and the same types of parameters. -/
theorem Signature.WellNamed.text_inj {s s' : Signature} (h : s.WellNamed) (h' : s'.WellNamed)
    (heq : s.text = s'.text) : s.name = s'.name ∧ s.paramTypes = s'.paramTypes :=
  signatureText_inj h.name h'.name h.paramTypes h'.paramTypes heq

structure Method.WellNamed (m : Method) : Prop where
  signature : m.signature.WellNamed
  body : m.body.WellNamed

structure Property.WellNamed (p : Property) : Prop where
  name : PlainName p.variable_.name
  variable_ : p.variable_.WellNamed

structure ClassDecl.WellNamed (d : ClassDecl) : Prop where
  name : ValueName d.name
  properties : ∀ p ∈ d.properties, p.WellNamed
  methods : ∀ m ∈ d.constructors ++ d.methods ++ d.main.toList, m.WellNamed

structure InterfaceDecl.WellNamed (d : InterfaceDecl) : Prop where
  name : ValueName d.name
  methods : ∀ s ∈ d.methods, s.WellNamed

def TypeDecl.WellNamed : TypeDecl → Prop
  | class_ d => d.WellNamed
  | interface d => d.WellNamed

def Program.WellNamed (p : Program) : Prop := ∀ d ∈ p.declarations, d.WellNamed

end Javelet
