import Javelet.Proofs.Phrases.Taken.Declaration
import Javelet.Proofs.Syntax.Places

/-!
# Jumps and labels in parsed programs

What the grammar asks of the surroundings of a statement is left in the tree: every `break` and
every `continue` has a target around it, and every label of a case is an integer, a character or a
boolean.
-/
namespace Javelet

open Grammar

/-- A jump has a target in its surroundings. -/
def Jump.Fits (around : Surroundings) : Jump → Prop
  | return_ _ => True
  | break_ => around.breakable = true
  | continue_ => around.loop = true

/-- All jumps in a statement have targets, and all labels in it have values. -/
inductive Statement.Fits : Surroundings → Statement → Prop
  | block {around : Surroundings} {b : Block} : (∀ s ∈ b.statements, Fits around s) →
      Fits around (.block b)
  | conditional {around : Surroundings} {p : Position} {e : Expr} {body : Statement}
      {otherwise : Option Statement} : Fits around body → (∀ s ∈ otherwise, Fits around s) →
      Fits around (.conditional p e body otherwise)
  | whileLoop {around : Surroundings} {p : Position} {e : Expr} {body : Statement} :
      Fits .inLoop body → Fits around (.whileLoop p e body)
  | forLoop {around : Surroundings} {p : Position} {id : NodeId} {init : Option ForInit}
      {e : Option Expr} {update : Option Action} {body : Statement} : Fits .inLoop body →
      Fits around (.forLoop p id init e update body)
  | switch {around : Surroundings} {p : Position} {id : NodeId} {e : Expr} {cases : List Case}
      {default_ : Option Block} : (∀ c ∈ cases, LabelValue (Case.label c)) →
      (∀ c ∈ cases, ∀ s ∈ (Case.body c).statements, Fits around.inSwitch s) →
      (∀ b ∈ default_, ∀ s ∈ Block.statements b, Fits around.inSwitch s) →
      Fits around (.switch p id e cases default_)
  | jump {around : Surroundings} {p : Position} {j : Jump} : j.Fits around →
      Fits around (.jump p j)
  | action {around : Surroundings} {a : Action} : Fits around (.action a)
  | declaration {around : Surroundings} {v : Variable} : Fits around (.declaration v)

def Block.Fits (around : Surroundings) (b : Block) : Prop := ∀ s ∈ b.statements, s.Fits around

namespace Grammar

/-! ## Statements -/

theorem SpellsJump.fits {around : Surroundings} {ts : List Token} {j : Jump}
    (h : SpellsJump around ts (j.marked .none)) : j.Fits around := by
  cases j with
  | return_ value => trivial
  | break_ =>
    cases h with
    | break_ _ hbreakable => exact hbreakable
  | continue_ =>
    cases h with
    | continue_ _ hloop => exact hloop

/-- Every statement in a sequence is spelled by a part of the phrase. -/
theorem SpellsStatements.exists_phrase {around : Surroundings} {ts : List Token}
    {ss : List Statement} (h : SpellsStatements around ts ss) :
    ∀ s ∈ ss, ∃ us, SpellsStatement around us s := by
  induction ss generalizing ts with
  | nil => exact nofun
  | cons s ss ih =>
    cases h with
    | cons hs hss => exact List.forall_mem_cons.2 ⟨⟨_, hs⟩, ih hss⟩

/-- The body of an arm is spelled by a part of the phrase. -/
def ArmSpelled (around : Surroundings) (body : Block) : Prop :=
  ∃ us, SpellsStatements around us body.statements

theorem SpellsArms.bodies {around : Surroundings} {ts : List Token} {cases : List Case}
    {default_ : Option Block} (h : SpellsArms around ts cases default_) :
    (∀ c ∈ cases, LabelValue c.label ∧ ArmSpelled around c.body) ∧
      ∀ b ∈ default_, ArmSpelled around b := by
  -- Arms and statements are spelled by mutual recursion; the length of the phrase tells the arms.
  induction hn : ts.length using Nat.strongRecOn generalizing ts cases default_ with
  | ind n ih =>
    subst hn
    cases h with
    | nil =>
      refine ⟨List.forall_mem_nil _, ?_⟩
      rintro _ ⟨⟩
    | case _ _ hlabel _ hbody hrest =>
      obtain ⟨hcases, hdefault⟩ := ih _ (by simp; omega) hrest rfl
      exact ⟨List.forall_mem_cons.2 ⟨⟨hlabel, _, hbody⟩, hcases⟩, hdefault⟩
    | default_ _ _ hbody hrest =>
      obtain ⟨hcases, -⟩ := ih _ (by simp; omega) hrest rfl
      refine ⟨hcases, ?_⟩
      rintro _ ⟨⟩
      exact ⟨_, hbody⟩

variable {around : Surroundings} {ts : List Token}

/-- What is shown of every statement. -/
def FitsWhenSpelled (s : Statement) : Prop :=
  ∀ {around ts}, SpellsStatement around ts (s.marked .none) → s.Fits around

theorem statements_fit {ss : List Statement} (ih : ∀ s ∈ ss, FitsWhenSpelled s)
    (h : SpellsStatements around ts (ss.map (Statement.marked .none))) :
    ∀ s ∈ ss, s.Fits around := by
  intro s hs
  obtain ⟨us, hus⟩ := h.exists_phrase _ (List.mem_map_of_mem hs)
  exact ih s hs hus

theorem SpellsBlock.fits_of {b : Block} (ih : ∀ s ∈ b.statements, FitsWhenSpelled s)
    (h : SpellsBlock around ts (b.marked .none)) : b.Fits around := by
  obtain ⟨id, p, ss⟩ := b
  simp only [Block.marked, markedStatements_eq] at h
  cases h with
  | mk _ hss _ => exact statements_fit ih hss

theorem arm_fits {b : Block} (ih : ∀ s ∈ b.statements, FitsWhenSpelled s)
    (h : ArmSpelled around (b.marked .none)) : b.Fits around := by
  obtain ⟨id, p, ss⟩ := b
  obtain ⟨us, hss⟩ := h
  simp only [Block.marked, markedStatements_eq] at hss
  exact statements_fit ih hss

theorem fits_of_spelled (s : Statement) : FitsWhenSpelled s := by
  induction s using Statement.induction with
  | block b ih =>
    intro around ts h
    simp only [Statement.marked] at h
    cases h with
    | block hb => exact .block (hb.fits_of ih)
  | conditional p e body otherwise ihbody ihother =>
    intro around ts h
    simp only [Statement.marked, markedOtherwise_eq] at h
    cases otherwise with
    | none =>
      cases h with
      | conditional _ _ hbody =>
        refine .conditional (ihbody hbody) ?_
        rintro _ ⟨⟩
    | some s =>
      cases h with
      | alternative _ _ hbody _ _ hs =>
        refine .conditional (ihbody hbody) ?_
        rintro _ ⟨⟩
        exact ihother s rfl hs
  | whileLoop p e body ih =>
    intro around ts h
    simp only [Statement.marked] at h
    cases h with
    | whileLoop _ _ hbody => exact .whileLoop (ih hbody)
  | forLoop p id init e update body ih =>
    intro around ts h
    simp only [Statement.marked] at h
    cases h with
    | forLoop _ _ _ _ _ _ _ _ hbody => exact .forLoop (ih hbody)
  | switch p id e cases default_ ihc ihd =>
    intro around ts h
    simp only [Statement.marked, markedCases_eq, markedDefault_eq] at h
    cases h with
    | switch _ _ _ harms _ =>
      obtain ⟨hcases, hdefault⟩ := harms.bodies
      refine .switch ?_ ?_ ?_
      · rintro ⟨p, q, label, body⟩ hc
        exact (hcases _ (List.mem_map_of_mem hc)).1
      · rintro ⟨p, q, label, body⟩ hc
        exact arm_fits (ihc _ hc) (hcases _ (List.mem_map_of_mem hc)).2
      · rintro b ⟨⟩
        exact arm_fits (ihd b rfl) (hdefault _ rfl)
  | jump p j =>
    intro around ts h
    simp only [Statement.marked] at h
    cases h with
    | jump hj _ => exact .jump hj.fits
  | action a => exact fun _ => .action
  | declaration v => exact fun _ => .declaration

theorem SpellsBlock.fits {b : Block} (h : SpellsBlock around ts (b.marked .none)) :
    b.Fits around :=
  h.fits_of fun s _ => fits_of_spelled s

/-! ## Declarations -/

/-- A phrase of tokens that stand in a list. -/
def SpelledIn {α : Type} (Phrase : List Token → α → Prop) (ts : List Token) (value : α) : Prop :=
  ∃ us, us ⊆ ts ∧ Phrase us value

theorem SpelledIn.mono {α : Type} {Phrase : List Token → α → Prop} {value : α} {us : List Token}
    (h : SpelledIn Phrase us value) (hts : us ⊆ ts) : SpelledIn Phrase ts value := by
  obtain ⟨vs, hvs, hphrase⟩ := h
  exact ⟨vs, List.Subset.trans hvs hts, hphrase⟩

theorem SpellsAll.spelledIn {α : Type} {Phrase : List Token → α → Prop} {values : List α}
    (h : SpellsAll Phrase ts values) : ∀ value ∈ values, SpelledIn Phrase ts value := by
  induction h with
  | nil => exact nofun
  | cons hvalue _ ih =>
    exact List.forall_mem_cons.2 ⟨⟨_, List.subset_append_left .., hvalue⟩,
      fun value hmem => (ih value hmem).mono (List.subset_append_right ..)⟩

/-- The body of every member is spelled outside of loops and switches. -/
theorem SpellsMembers.bodies {className : String} {m : Members}
    (h : SpellsMembers className ts m) :
    ∀ d ∈ m.constructors ++ m.methods ++ m.main.toList,
      SpelledIn (SpellsBlock .none) ts d.body := by
  induction h with
  | nil => exact nofun
  | property _ _ ih => exact fun d hd => (ih d hd).mono (List.subset_append_right ..)
  | constructor hd _ _ ih =>
    obtain ⟨_, _, _, hbody⟩ := hd
    exact List.forall_mem_cons.2 ⟨⟨_, fun t ht => by simp [ht], hbody⟩,
      fun d hd => (ih d hd).mono (List.subset_append_right ..)⟩
  | method hd _ ih =>
    obtain ⟨_, _, _, _, hbody⟩ := hd
    intro d hd
    simp only [List.mem_append, List.mem_cons] at ih hd
    rcases hd with (hd | rfl | hd) | hd
    · exact (ih d (.inl (.inl hd))).mono (List.subset_append_right ..)
    · exact ⟨_, fun t ht => by simp [ht], hbody⟩
    · exact (ih d (.inl (.inr hd))).mono (List.subset_append_right ..)
    · exact (ih d (.inr hd)).mono (List.subset_append_right ..)
  | main hd _ _ ih =>
    obtain ⟨_, _, _, _, _, _, hbody⟩ := hd
    intro d hd
    simp only [List.mem_append, Option.mem_toList, Option.some.injEq] at ih hd
    rcases hd with hd | rfl
    · exact (ih d (.inl hd)).mono (List.subset_append_right ..)
    · exact ⟨_, fun t ht => by simp [ht], hbody⟩

/-- The members of a class in its declaration. -/
theorem SpellsTypeDecl.members {d : ClassDecl} (h : SpellsTypeDecl ts (.class_ d)) :
    SpelledIn (SpellsMembers d.name) ts ⟨d.properties, d.constructors, d.methods, d.main⟩ := by
  have hkind : ∀ {us}, SpellsKind us (.class_ d) → SpelledIn (SpellsMembers d.name) us
      ⟨d.properties, d.constructors, d.methods, d.main⟩ := by
    intro us h
    cases h with
    | class_ h =>
      cases h with
      | mk _ _ _ _ _ hmembers _ => exact ⟨_, fun t ht => by simp [ht], hmembers⟩
  cases h with
  | unmarked h => exact hkind h
  | public_ _ h => exact (hkind h).mono (List.subset_cons_self ..)

/-- The bodies of the members of a class in a program are spelled by parts of the program. -/
theorem bodies_of_parse {program : Program} (h : parse ts = .ok program) {d : ClassDecl}
    (hd : .class_ d ∈ program.declarations) :
    ∀ m ∈ d.members, SpelledIn (SpellsBlock .none) ts (m.body.marked .none) := by
  obtain ⟨us, hus, hspelled⟩ := (spellsProgram_of_parse h).spelledIn _ (List.mem_map_of_mem hd)
  obtain ⟨vs, hvs, hmembers⟩ := SpellsTypeDecl.members hspelled
  have hbodies : ∀ m ∈ (d.marked .none).members, SpelledIn (SpellsBlock .none) vs m.body :=
    hmembers.bodies
  have hmap : (d.marked .none).members = d.members.map (Method.marked .none) := by
    simp [ClassDecl.members, Option.toList_map]
  rw [hmap, List.forall_mem_map] at hbodies
  exact fun m hm => (hbodies m hm).mono (List.Subset.trans hvs hus)

end Grammar

/-- In a program that is read from tokens, all jumps have targets and all labels have values. -/
theorem parse_fits {ts : List Token} {program : Program} (h : parse ts = .ok program)
    {d : ClassDecl} (hd : .class_ d ∈ program.declarations) :
    ∀ m ∈ d.members, m.body.Fits .none := by
  intro m hm
  obtain ⟨us, -, hbody⟩ := bodies_of_parse h hd m hm
  exact hbody.fits

end Javelet
