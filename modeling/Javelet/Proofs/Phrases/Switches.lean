import Javelet.Proofs.Phrases.Taken.Declaration

/-!
# The switches of a program in its source

A switch keeps its cases and its default apart, so the tree does not tell where the default stands
among the cases. The tokens do: the arms of a switch stand one behind the other, each with its
keyword in front, and the cases and the default of the tree are those arms, the cases in the order
in which they stand. A case is placed at its keyword, and a switch at its own.

Every switch of a program was read from some part of its tokens, however deep it is nested. What a
reader gives is followed along the readers: each of them goes on in a rest of the same tokens, and
the switches in its result are those that its parts have read, or the one that it reads itself.
-/
namespace Javelet

/-! ## Arms -/

/-- An arm of a switch as it stands in the source. -/
inductive Arm where
  | case (c : Case)
  | default_ (body : Block)

namespace Arm

def case? : Arm → Option Case
  | case c => some c
  | default_ _ => none

def default? : Arm → Option Block
  | case _ => none
  | default_ body => some body

end Arm

def Statement.isSwitch : Statement → Bool
  | switch .. => true
  | _ => false

/-- A statement is another one or stands inside of it, at any depth. -/
inductive Statement.Contains : Statement → Statement → Prop
  | self {s : Statement} : Contains s s
  | inner {s s' w : Statement} : s' ∈ s.inner → Contains s' w → Contains s w

namespace Grammar

/-- Arms one behind the other. -/
inductive StandArms (around : Surroundings) : List Token → List Arm → Prop
  | nil : StandArms around [] []
  | case {word colon : Token} {ls ts rest : List Token} {c : Case} {arms : List Arm} :
      word.isKeyword "case" → c.position = word.position → SpellsLiteral ls c.label →
      colon.kind = .symbol .colon →
      SpellsStatements around ts (c.body.statements.map (Statement.marked .none)) →
      StandArms around rest arms →
      StandArms around (word :: (ls ++ colon :: (ts ++ rest))) (.case c :: arms)
  | default_ {word colon : Token} {ts rest : List Token} {body : Block} {arms : List Arm} :
      word.isKeyword "default" → colon.kind = .symbol .colon →
      SpellsStatements around ts (body.statements.map (Statement.marked .none)) →
      StandArms around rest arms →
      StandArms around (word :: colon :: (ts ++ rest)) (.default_ body :: arms)

/-- A switch with its arms in the order in which they stand. -/
inductive StandSwitch : List Token → List Arm → Statement → Prop
  | mk {around : Surroundings} {word opening closing : Token} {cs ts : List Token} {id : NodeId}
      {selector : Expr} {cases : List Case} {default_ : Option Block} {arms : List Arm} :
      word.isKeyword "switch" → SpellsCondition cs (selector.marked .none) →
      opening.kind = .symbol .leftBrace → StandArms around ts arms →
      closing.kind = .symbol .rightBrace → cases = arms.filterMap Arm.case? →
      default_.toList = arms.filterMap Arm.default? →
      StandSwitch (word :: (cs ++ opening :: (ts ++ [closing]))) arms
        (.switch word.position id selector cases default_)

/-! ## Readers of arms -/

theorem statements_of_marked {b : Block} {ss : List Statement}
    (h : b.marked .none = .mk 0 .start ss) : ss = b.statements.map (Statement.marked .none) := by
  obtain ⟨id, p, statements⟩ := b
  simpa [Block.statements] using congrArg Block.statements h.symm

/-- The tokens in front of the rest are arms that follow those that are read already, and a closing
brace. -/
def ArmsStand (around : Surroundings) (done : Arms) (ts : List Token) (r : Arms × NodeId)
    (rest : List Token) : Prop :=
  ∃ used closing new, ts = used ++ closing :: rest ∧ closing.kind = .symbol .rightBrace ∧
    StandArms around used new ∧
    r.1.cases.reverse = done.cases.reverse ++ new.filterMap Arm.case? ∧
    r.1.default_.toList = done.default_.toList ++ new.filterMap Arm.default?

theorem arms_stand (finish : Position) (around : Surroundings) (bound : Nat) (done : Arms)
    (id : NodeId) (ts : List Token) (h : ts.length < bound) :
    Gives (arms finish around bound done id ts h) (ArmsStand around done ts) := by
  rw [arms]
  dsimp only
  split
  · rename_i closing rest h' hp
    obtain ⟨hts, hclose⟩ := acceptSymbol_eq_some hp
    exact .ok ⟨[], closing, [], hts, hclose, .nil, by simp, by simp⟩
  · split
    · rename_i word rest h' hp
      obtain ⟨hts, hword⟩ := acceptKeyword_eq_some hp
      refine .bind caseLabel_taken.within ?_
      rintro ⟨p, label⟩ rest' h'' ⟨ls, hrest, hlabel, -⟩
      refine .bind expectSymbol_taken.within fun colon rest'' _ hcolon => ?_
      obtain ⟨rfl, hcolon⟩ := hcolon
      refine .bind (caseBody_taken finish around id rest'').optionalWithin ?_
      rintro ⟨body, next⟩ last _ ⟨bs, ss, rfl, hbody, hbs⟩
      refine (arms_stand finish around bound _ next last _).imp ?_
      rintro r final ⟨used, closing, new, rfl, hclose, hnew, hcases, hdefault⟩
      rw [statements_of_marked hbody] at hbs
      refine ⟨word :: (ls ++ colon :: (bs ++ used)), closing,
        .case (.mk (here finish ts) p label body) :: new, by simp [hts, hrest], hclose, ?_, ?_,
        hdefault⟩
      · exact .case hword (hts ▸ rfl) hlabel hcolon hbs hnew
      · simpa [Arm.case?] using hcases
    · split
      · rename_i word rest h' hp
        obtain ⟨hts, hword⟩ := acceptKeyword_eq_some hp
        split
        · exact .error
        · rename_i hnone
          refine .bind expectSymbol_taken.within fun colon rest' _ hcolon => ?_
          obtain ⟨rfl, hcolon⟩ := hcolon
          refine .bind (caseBody_taken finish around id rest').optionalWithin ?_
          rintro ⟨body, next⟩ last _ ⟨bs, ss, rfl, hbody, hbs⟩
          refine (arms_stand finish around bound _ next last _).imp ?_
          rintro r final ⟨used, closing, new, rfl, hclose, hnew, hcases, hdefault⟩
          rw [statements_of_marked hbody] at hbs
          have hfirst : done.default_ = none := by simpa using hnone
          refine ⟨word :: colon :: (bs ++ used), closing, .default_ body :: new, by simp [hts], hclose,
            .default_ hword hcolon hbs hnew, hcases, ?_⟩
          simpa [Arm.default?, hfirst] using hdefault
      · exact .error
termination_by ts.length
decreasing_by all_goals omega

theorem switch_stands (finish : Position) (around : Surroundings) (id : NodeId)
    (ts : List Token) : Gives (switch finish around id ts) fun r rest =>
      ∃ used arms, ts = used ++ rest ∧ StandSwitch used arms r.1 := by
  rw [switch]
  refine .bind expectKeyword_taken fun word rest h hword => ?_
  obtain ⟨rfl, hword⟩ := hword
  refine .bind condition_taken.within fun selector rest' h' hselector => ?_
  obtain ⟨cs, rfl, hselector⟩ := hselector
  refine .bind expectSymbol_taken.within fun opening rest'' h'' hopen => ?_
  obtain ⟨rfl, hopen⟩ := hopen
  refine .bind (arms_stand finish around.inSwitch _ ⟨[], none⟩ (id + 1) rest'' h'') ?_
  rintro ⟨found, next⟩ last h₃ ⟨used, closing, arms, rfl, hclose, harms, hcases, hdefault⟩
  refine .ok ⟨word :: (cs ++ opening :: (used ++ [closing])), arms, by simp, ?_⟩
  exact .mk hword hselector hopen harms hclose (by simpa using hcases) (by simpa using hdefault)

end Grammar

/-! ## Switches at any depth -/

theorem Statement.Contains.cases_inner {s w : Statement} (h : s.Contains w) :
    w = s ∨ ∃ s' ∈ s.inner, s'.Contains w := by
  cases h with
  | self => exact .inl rfl
  | inner hs h => exact .inr ⟨_, hs, h⟩

namespace Grammar

/-- The switches in a statement stand in tokens, each with its arms. -/
def SwitchesStand (whole : List Token) (s : Statement) : Prop :=
  ∀ w, s.Contains w → w.isSwitch = true →
    ∃ part arms, part <:+: whole ∧ StandSwitch part arms w

variable {whole ts : List Token} {finish : Position}

namespace SwitchesStand

variable {s : Statement}

theorem of_inner (hs : s.isSwitch = false) (h : ∀ s' ∈ s.inner, SwitchesStand whole s') :
    SwitchesStand whole s := by
  intro w hw hswitch
  rcases hw.cases_inner with rfl | ⟨s', hs', hw⟩
  · cases hs.symm.trans hswitch
  · exact h s' hs' w hw hswitch

theorem switch {part : List Token} {arms : List Arm} (hpart : part <:+: whole)
    (hs : StandSwitch part arms s) (h : ∀ s' ∈ s.inner, SwitchesStand whole s') :
    SwitchesStand whole s := by
  intro w hw hswitch
  rcases hw.cases_inner with rfl | ⟨s', hs', hw⟩
  · exact ⟨part, arms, hpart, hs⟩
  · exact h s' hs' w hw hswitch

theorem block {b : Block} (h : ∀ s ∈ b.statements, SwitchesStand whole s) :
    SwitchesStand whole (.block b) :=
  of_inner rfl h

theorem jump {p : Position} {j : Jump} : SwitchesStand whole (.jump p j) :=
  of_inner rfl (List.forall_mem_nil _)

theorem action {a : Action} : SwitchesStand whole (.action a) :=
  of_inner rfl (List.forall_mem_nil _)

theorem declaration {v : Variable} : SwitchesStand whole (.declaration v) :=
  of_inner rfl (List.forall_mem_nil _)

end SwitchesStand

/-- A reader goes on in a rest of the same tokens, and the switches that it gives stand in them. -/
def ReadsSwitches (whole : List Token) (r : Statement × NodeId) (rest : List Token) : Prop :=
  SwitchesStand whole r.1 ∧ rest <:+ whole

def ReadsBlockSwitches (whole : List Token) (r : Block × NodeId) (rest : List Token) : Prop :=
  SwitchesStand whole (.block r.1) ∧ rest <:+ whole

/-- The switches in the arms that were read stand in the tokens. -/
def Arms.SwitchesStand (whole : List Token) (a : Arms) : Prop :=
  (∀ c ∈ a.cases, Grammar.SwitchesStand whole (.block c.body)) ∧
    ∀ b ∈ a.default_, Grammar.SwitchesStand whole (.block b)

theorem isSuffix_tail {t : Token} {rest : List Token} (hts : ts <:+ whole) (h : ts = t :: rest) :
    rest <:+ whole :=
  ((List.suffix_cons t rest).trans (h ▸ List.suffix_rfl)).trans hts

theorem isSuffix_rest {used rest : List Token} (hts : ts <:+ whole) (h : ts = used ++ rest) :
    rest <:+ whole :=
  (h ▸ List.suffix_append used rest : rest <:+ ts).trans hts

theorem isInfix_part {used rest : List Token} (hts : ts <:+ whole) (h : ts = used ++ rest) :
    used <:+: whole :=
  (h ▸ (List.prefix_append used rest).isInfix : used <:+: ts).trans hts.isInfix

theorem Gives.and {α : Type} {bound : Nat} {o : Outcome α bound} {Q R : α → List Token → Prop}
    (hq : Gives o Q) (hr : Gives o R) : Gives o fun value rest => Q value rest ∧ R value rest :=
  fun p hp => ⟨hq p hp, hr p hp⟩

theorem jump_isJump {around : Surroundings} :
    Gives (jump finish around ts) fun s _ => ∃ p j, s = .jump p j := by
  have hclose : ∀ {p : Position} {j : Jump} {us : List Token},
      Gives (closeJump finish p j us) fun s _ => ∃ p j, s = .jump p j :=
    closeJump_taken.imp fun _ _ h => ⟨_, _, h.1⟩
  unfold jump
  dsimp only
  split
  · split
    · exact hclose.within
    · exact .bind .any fun _ _ _ _ => hclose.within
  · split
    · split
      · exact hclose.within
      · exact .error
    · split
      · split
        · exact hclose.within
        · exact .error
      · exact .error

mutual

theorem statement_switches (finish : Position) (around : Surroundings) (id : NodeId)
    (ts : List Token) (hts : ts <:+ whole) :
    Gives (statement finish around id ts) (ReadsSwitches whole) := by
  rw [statement]
  split
  · exact .error
  · split
    · refine .bind (block_switches finish around id ts hts) ?_
      rintro ⟨body, next⟩ rest h hb
      exact .ok hb
    · split
      · exact conditional_switches finish around id ts hts
      · split
        · exact whileLoop_switches finish id ts hts
        · split
          · exact forLoop_switches finish id ts hts
          · split
            · exact switch_switches finish around id ts hts
            · split
              · refine .bind (jump_taken.and jump_isJump) fun s rest h hs => ?_
                obtain ⟨⟨⟨used, hrest, -⟩, -⟩, p, j, rfl⟩ := hs
                exact .ok ⟨.jump, isSuffix_rest hts hrest⟩
              · split
                · refine .bind variableDeclaration_taken fun v rest h hv => ?_
                  obtain ⟨used, hrest, -⟩ := hv
                  refine .bind expectSymbol_taken.within fun t last _ ht => ?_
                  exact .ok ⟨.declaration, isSuffix_tail (isSuffix_rest hts hrest) ht.1⟩
                · split
                  · refine .bind action_taken fun a rest h ha => ?_
                    obtain ⟨used, hrest, -⟩ := ha
                    refine .bind expectSymbol_taken.within fun t last _ ht => ?_
                    exact .ok ⟨.action, isSuffix_tail (isSuffix_rest hts hrest) ht.1⟩
                  · exact .error
termination_by 4 * ts.length + 1
decreasing_by all_goals omega

theorem block_switches (finish : Position) (around : Surroundings) (id : NodeId) (ts : List Token)
    (hts : ts <:+ whole) : Gives (block finish around id ts) (ReadsBlockSwitches whole) := by
  rw [block]
  refine .bind expectSymbol_taken fun opening rest h hopen => ?_
  refine .bind (statements_switches finish around (atSymbol .rightBrace) ts.length [] (id + 1) rest
    h (isSuffix_tail hts hopen.1) (List.forall_mem_nil _)) ?_
  rintro ⟨ss, next⟩ rest' h' ⟨hss, hrest⟩
  refine .bind expectSymbol_taken.within fun closing last _ hclose => ?_
  exact .ok ⟨.block hss, isSuffix_tail hrest hclose.1⟩
termination_by 4 * ts.length
decreasing_by omega

theorem statements_switches (finish : Position) (around : Surroundings)
    (stop : List Token → Bool) (bound : Nat) (done : List Statement) (id : NodeId)
    (ts : List Token) (h : ts.length < bound) (hts : ts <:+ whole)
    (hdone : ∀ s ∈ done, SwitchesStand whole s) :
    Gives (statements finish around stop bound done id ts h) fun r rest =>
      (∀ s ∈ r.1, SwitchesStand whole s) ∧ rest <:+ whole := by
  rw [statements]
  split
  · exact .ok ⟨fun s hs => hdone s (List.mem_reverse.1 hs), hts⟩
  · split
    · exact .error
    · refine .bind (statement_switches finish around id ts hts) ?_
      rintro ⟨s, middle⟩ rest h' ⟨hs, hrest⟩
      exact statements_switches finish around stop bound (s :: done) middle rest
        (shorter_bound h' h) hrest (List.forall_mem_cons.2 ⟨hs, hdone⟩)
termination_by 4 * ts.length + 2
decreasing_by all_goals omega

theorem conditional_switches (finish : Position) (around : Surroundings) (id : NodeId)
    (ts : List Token) (hts : ts <:+ whole) :
    Gives (conditional finish around id ts) (ReadsSwitches whole) := by
  rw [conditional]
  refine .bind expectKeyword_taken fun word rest h hword => ?_
  refine .bind condition_taken.within fun test rest' h' htest => ?_
  obtain ⟨cs, hrest, -⟩ := htest
  have hrest' := isSuffix_rest (isSuffix_tail hts hword.1) hrest
  refine .bind (statement_switches finish around id rest' hrest').within ?_
  rintro ⟨body, middle⟩ rest'' h'' ⟨hbody, hrest''⟩
  dsimp only
  split
  · rename_i else_ more hlt hp
    have hmore := isSuffix_tail hrest'' (acceptKeyword_eq_some hp).1
    refine .bind (statement_switches finish around middle more hmore).within ?_
    rintro ⟨otherwise, next⟩ last h₃ ⟨hotherwise, hlast⟩
    refine .ok ⟨.of_inner rfl ?_, hlast⟩
    exact List.forall_mem_cons.2 ⟨hbody, List.forall_mem_singleton.2 hotherwise⟩
  · exact .ok ⟨.of_inner rfl (List.forall_mem_singleton.2 hbody), hrest''⟩
termination_by 4 * ts.length
decreasing_by all_goals omega

theorem whileLoop_switches (finish : Position) (id : NodeId) (ts : List Token)
    (hts : ts <:+ whole) : Gives (whileLoop finish id ts) (ReadsSwitches whole) := by
  rw [whileLoop]
  refine .bind expectKeyword_taken fun word rest h hword => ?_
  refine .bind condition_taken.within fun test rest' h' htest => ?_
  obtain ⟨cs, hrest, -⟩ := htest
  have hrest' := isSuffix_rest (isSuffix_tail hts hword.1) hrest
  refine .bind (statement_switches finish .inLoop id rest' hrest').within ?_
  rintro ⟨body, next⟩ last h'' ⟨hbody, hlast⟩
  exact .ok ⟨.of_inner rfl (List.forall_mem_singleton.2 hbody), hlast⟩
termination_by 4 * ts.length
decreasing_by omega

theorem forLoop_switches (finish : Position) (id : NodeId) (ts : List Token)
    (hts : ts <:+ whole) : Gives (forLoop finish id ts) (ReadsSwitches whole) := by
  rw [forLoop]
  refine .bind expectKeyword_taken fun word rest h hword => ?_
  refine .bind expectSymbol_taken.within fun opening rest₁ h₁ hopen => ?_
  refine .bind forInit_taken.within fun init rest₂ h₂ hinit => ?_
  obtain ⟨is, first, hrest₁, -⟩ := hinit
  refine .bind forCondition_taken.within fun test rest₃ h₃ htest => ?_
  obtain ⟨cs, second, hrest₂, -⟩ := htest
  refine .bind forUpdate_taken.within fun update rest₄ h₄ hupdate => ?_
  obtain ⟨us, closing, hrest₃, -⟩ := hupdate
  have hopened := isSuffix_tail (isSuffix_tail hts hword.1) hopen.1
  have hheader := isSuffix_tail (isSuffix_rest (isSuffix_tail (isSuffix_rest (isSuffix_tail
    (isSuffix_rest hopened hrest₁) rfl) hrest₂) rfl) hrest₃) rfl
  refine .bind (statement_switches finish .inLoop (id + 1) rest₄ hheader).within ?_
  rintro ⟨body, next⟩ last h₅ ⟨hbody, hlast⟩
  refine .ok ⟨.of_inner rfl ?_, hlast⟩
  intro s hs
  simp only [Statement.inner, List.mem_append, List.mem_map, List.mem_singleton] at hs
  rcases hs with (⟨i, -, rfl⟩ | ⟨a, -, rfl⟩) | rfl
  · cases i with
    | declaration v => exact .declaration
    | assignment a => exact .action
  · exact .action
  · exact hbody
termination_by 4 * ts.length
decreasing_by omega

theorem switch_switches (finish : Position) (around : Surroundings) (id : NodeId)
    (ts : List Token) (hts : ts <:+ whole) :
    Gives (switch finish around id ts) (ReadsSwitches whole) := by
  intro p hp
  obtain ⟨used, found, hused, hstand⟩ := switch_stands finish around id ts p hp
  have hinner : Gives (switch finish around id ts) fun r _ =>
      ∀ s ∈ r.1.inner, SwitchesStand whole s := by
    rw [switch]
    refine .bind expectKeyword_taken fun word rest h hword => ?_
    refine .bind condition_taken.within fun selector rest' h' hselector => ?_
    obtain ⟨cs, hrest, -⟩ := hselector
    refine .bind expectSymbol_taken.within fun opening rest'' h'' hopen => ?_
    have hrest'' := isSuffix_tail (isSuffix_rest (isSuffix_tail hts hword.1) hrest) hopen.1
    refine .bind (arms_switches finish around.inSwitch _ ⟨[], none⟩ (id + 1) rest'' h'' hrest''
      ⟨List.forall_mem_nil _, nofun⟩) ?_
    rintro ⟨arms, next⟩ last h₃ ⟨hcases, hdefault⟩
    refine .ok ?_
    intro s hs
    simp only [Statement.inner, List.mem_map, List.mem_append, List.mem_reverse,
      Option.mem_toList] at hs
    obtain ⟨b, ⟨c, hc, rfl⟩ | hb, rfl⟩ := hs
    · exact hcases c hc
    · exact hdefault b hb
  exact ⟨.switch (isInfix_part hts hused) hstand (hinner p hp), isSuffix_rest hts hused⟩
termination_by 4 * ts.length
decreasing_by omega

theorem arms_switches (finish : Position) (around : Surroundings) (bound : Nat) (done : Arms)
    (id : NodeId) (ts : List Token) (h : ts.length < bound) (hts : ts <:+ whole)
    (hdone : done.SwitchesStand whole) :
    Gives (arms finish around bound done id ts h) fun r _ => r.1.SwitchesStand whole := by
  rw [arms]
  dsimp only
  split
  · exact .ok hdone
  · split
    · rename_i word rest h' hp
      refine .bind caseLabel_taken.within ?_
      rintro ⟨p, label⟩ rest' h'' ⟨ls, hrest, -⟩
      refine .bind expectSymbol_taken.within fun colon rest'' _ hcolon => ?_
      have hrest'' := isSuffix_tail (isSuffix_rest (isSuffix_tail hts
        (acceptKeyword_eq_some hp).1) hrest) hcolon.1
      refine .bind (caseBody_switches finish around id rest'' hrest'').optionalWithin ?_
      rintro ⟨body, next⟩ last _ ⟨hbody, hlast⟩
      exact arms_switches finish around bound _ next last _ hlast
        ⟨List.forall_mem_cons.2 ⟨hbody, hdone.1⟩, hdone.2⟩
    · split
      · rename_i word rest h' hp
        split
        · exact .error
        · refine .bind expectSymbol_taken.within fun colon rest' _ hcolon => ?_
          have hrest' := isSuffix_tail (isSuffix_tail hts (acceptKeyword_eq_some hp).1) hcolon.1
          refine .bind (caseBody_switches finish around id rest' hrest').optionalWithin ?_
          rintro ⟨body, next⟩ last _ ⟨hbody, hlast⟩
          refine arms_switches finish around bound _ next last _ hlast ⟨hdone.1, ?_⟩
          rintro b ⟨⟩
          exact hbody
      · exact .error
termination_by 4 * ts.length
decreasing_by all_goals omega

theorem caseBody_switches (finish : Position) (around : Surroundings) (id : NodeId)
    (ts : List Token) (hts : ts <:+ whole) :
    Gives (caseBody finish around id ts) (ReadsBlockSwitches whole) := by
  rw [caseBody]
  refine .bind (statements_switches finish around atCaseEnd (ts.length + 1) [] (id + 1) ts
    (shorter_succ ts) hts (List.forall_mem_nil _)) ?_
  rintro ⟨ss, next⟩ rest h ⟨hss, hrest⟩
  exact .ok ⟨.block hss, hrest⟩
termination_by 4 * ts.length + 3
decreasing_by omega

end

/-! ## Members -/

/-- The switches in the body of a method stand in the tokens. -/
def MethodStands (whole : List Token) (m : Method) : Prop := SwitchesStand whole (.block m.body)

/-- The switches in the members that were read stand in the tokens. -/
structure Members.Stand (whole : List Token) (m : Members) : Prop where
  constructors : ∀ d ∈ m.constructors, MethodStands whole d
  methods : ∀ d ∈ m.methods, MethodStands whole d
  main : ∀ d ∈ m.main, MethodStands whole d

theorem methodRest_switches {header : Signature} (hts : ts <:+ whole) :
    Gives (methodRest finish header ts) fun r rest => MethodStands whole r.1 ∧ rest <:+ whole := by
  unfold methodRest
  refine .bind parameters_taken fun params rest h hparams => ?_
  obtain ⟨ps, hrest, -⟩ := hparams
  refine .bind (block_switches finish .none (header.id + 1) rest
    (isSuffix_rest hts hrest)).within ?_
  rintro ⟨body, next⟩ last h' ⟨hbody, hlast⟩
  exact .ok ⟨hbody, hlast⟩

theorem mainMethod_switches {p : Position} {access : Option Access} {id : NodeId}
    (hts : ts <:+ whole) : Gives (mainMethod finish p access id ts) fun r rest =>
      MethodStands whole r.1 ∧ rest <:+ whole := by
  unfold mainMethod
  dsimp only
  split
  · exact .error_bind
  · split
    · exact .error
    · rename_i void rest h hp
      have hrest := isSuffix_tail hts (acceptKeyword_eq_some hp).1
      split
      · exact .error
      · rename_i t rest' h' hp'
        have hrest' := isSuffix_tail hrest (accept_eq_some hp').1
        refine .bind parameters_taken.within fun params rest'' h'' hparams => ?_
        obtain ⟨ps, hrest'', -⟩ := hparams
        dsimp only
        split
        · exact .error_bind
        · refine .bind (block_switches finish .none (id + 1) rest''
            (isSuffix_rest hrest' hrest'')).within ?_
          rintro ⟨body, next⟩ last h₃ ⟨hbody, hlast⟩
          exact .ok ⟨hbody, hlast⟩

theorem typedMember_switches {p : Position} {access : Access} {done : Members} {id : NodeId}
    (hts : ts <:+ whole) (hdone : done.Stand whole) :
    Gives (typedMember finish p access done id ts) fun r rest =>
      r.1.Stand whole ∧ rest <:+ whole := by
  unfold typedMember
  refine .bind returnType_taken fun type rest h htype => ?_
  obtain ⟨us, hrest, -⟩ := htype
  refine .bind expectName_taken.within fun name rest' h' hname => ?_
  obtain ⟨t, hrest', -, -⟩ := hname
  have hnamed := isSuffix_tail (isSuffix_rest hts hrest) hrest'
  dsimp only
  split
  · refine .bind (methodRest_switches hnamed).within ?_
    rintro ⟨m, next⟩ last h'' ⟨hm, hlast⟩
    exact .ok ⟨⟨hdone.constructors, List.forall_mem_cons.2 ⟨hm, hdone.methods⟩, hdone.main⟩, hlast⟩
  · split
    · exact .error
    · refine .bind initialValue_taken.optionalWithin fun value rest'' h'' hvalue => ?_
      obtain ⟨vs, hrest'', -⟩ := hvalue
      refine .bind expectSymbol_taken.within fun semicolon last h₃ hsemicolon => ?_
      exact .ok ⟨⟨hdone.constructors, hdone.methods, hdone.main⟩,
        isSuffix_tail (isSuffix_rest hnamed hrest'') hsemicolon.1⟩

theorem constructorMember_switches {p : Position} {className : String} {access : Access}
    {done : Members} {id : NodeId} (hts : ts <:+ whole) (hdone : done.Stand whole) :
    Gives (constructorMember finish p className access done id ts) fun r rest =>
      r.1.Stand whole ∧ rest <:+ whole := by
  unfold constructorMember
  refine .bind expectName_taken fun name rest h hname => ?_
  obtain ⟨t, hrest, -, -⟩ := hname
  refine .bind (methodRest_switches (isSuffix_tail hts hrest)).within ?_
  rintro ⟨m, next⟩ last h' ⟨hm, hlast⟩
  exact .ok ⟨⟨List.forall_mem_cons.2 ⟨hm, hdone.constructors⟩, hdone.methods, hdone.main⟩, hlast⟩

theorem member_switches {className : String} {done : Members} {id : NodeId}
    (hts : ts <:+ whole) (hdone : done.Stand whole) :
    Gives (member finish className done id ts) fun r rest =>
      r.1.Stand whole ∧ rest <:+ whole := by
  obtain ⟨as, hmodifier, -⟩ := accessModifier_taken ts
  have hmodified := isSuffix_rest hts hmodifier
  unfold member
  dsimp only
  split
  · rename_i static more h hp
    have hmore := isSuffix_tail hmodified (acceptKeyword_eq_some hp).1
    refine .bind (mainMethod_switches hmore).within.behind ?_
    rintro ⟨main, next⟩ rest h' ⟨hmain, hrest⟩
    dsimp only
    split
    · exact .error_bind
    · refine .ok ⟨⟨hdone.constructors, hdone.methods, ?_⟩, hrest⟩
      rintro d ⟨⟩
      exact hmain
  · split
    · exact (constructorMember_switches hmodified hdone).behind
    · exact (typedMember_switches hmodified hdone).behind

theorem members_switches (finish : Position) (className : String) (bound : Nat) (done : Members)
    (id : NodeId) (ts : List Token) (h : ts.length < bound) (hts : ts <:+ whole)
    (hdone : done.Stand whole) :
    Gives (members finish className bound done id ts h) fun r rest =>
      r.1.Stand whole ∧ rest <:+ whole := by
  rw [members]
  split
  · rename_i closing rest h' hp
    exact .ok ⟨hdone, isSuffix_tail hts (acceptSymbol_eq_some hp).1⟩
  · split
    · exact .error
    · refine .bind (member_switches hts hdone) ?_
      rintro ⟨next, middle⟩ rest h' ⟨hnext, hrest⟩
      exact members_switches finish className bound next middle rest _ hrest hnext
termination_by ts.length
decreasing_by omega

/-! ## Types -/

/-- The switches in a class stand in the tokens. -/
def DeclarationStands (whole : List Token) : TypeDecl → Prop
  | .class_ d => ∀ m ∈ d.constructors ++ d.methods ++ d.main.toList, MethodStands whole m
  | .interface _ => True

theorem classRest_switches {p : Position} {id : NodeId} (hts : ts <:+ whole) :
    Gives (classRest finish p id ts) fun r rest =>
      DeclarationStands whole (.class_ r.1) ∧ rest <:+ whole := by
  unfold classRest
  refine .bind expectName_taken fun name rest h hname => ?_
  obtain ⟨t, hrest, -, -⟩ := hname
  refine .bind supertype_taken.optionalWithin fun superclass rest' h' hsuper => ?_
  obtain ⟨ss, hrest', -⟩ := hsuper
  refine .bind supertype_taken.optionalWithin fun interface rest'' h'' hinterface => ?_
  obtain ⟨is, hrest'', -⟩ := hinterface
  refine .bind expectSymbol_taken.within fun opening rest₃ h₃ hopen => ?_
  have hheader := isSuffix_tail (isSuffix_rest (isSuffix_rest (isSuffix_tail hts hrest) hrest')
    hrest'') hopen.1
  refine .bind (members_switches finish name _ _ (id + 1) rest₃ h₃ hheader
    ⟨List.forall_mem_nil _, List.forall_mem_nil _, nofun⟩) ?_
  rintro ⟨found, next⟩ last h₄ ⟨hfound, hlast⟩
  refine .ok ⟨?_, hlast⟩
  intro m hm
  simp only [List.mem_append, List.mem_reverse, Option.mem_toList] at hm
  rcases hm with (hm | hm) | hm
  · exact hfound.constructors m hm
  · exact hfound.methods m hm
  · exact hfound.main m hm

theorem typeDeclarationRest_switches {p : Position} {id : NodeId} (hts : ts <:+ whole) :
    Gives (typeDeclarationRest finish p id ts) fun r _ => DeclarationStands whole r.1 := by
  unfold typeDeclarationRest
  split
  · rename_i word rest h hp
    refine .bind (classRest_switches (isSuffix_tail hts (acceptKeyword_eq_some hp).1)).within ?_
    rintro ⟨d, next⟩ last h' ⟨hd, -⟩
    exact .ok hd
  · split
    · exact .bind .any fun _ _ _ _ => .ok trivial
    · exact .error

theorem typeDeclaration_switches {id : NodeId} (hts : ts <:+ whole) :
    Gives (typeDeclaration finish id ts) fun r _ => DeclarationStands whole r.1 := by
  unfold typeDeclaration
  dsimp only
  split
  · rename_i word rest h hp
    exact (typeDeclarationRest_switches
      (isSuffix_tail hts (acceptKeyword_eq_some hp).1)).within
  · exact typeDeclarationRest_switches hts

theorem declarations_switches (finish : Position) (done : List TypeDecl) (id : NodeId)
    (ts : List Token) (hts : ts <:+ whole) (hdone : ∀ d ∈ done, DeclarationStands whole d)
    {r : Program × NodeId} (h : declarations finish done id ts = .ok r) :
    ∀ d ∈ r.1.declarations, DeclarationStands whole d := by
  rw [declarations] at h
  split at h
  · cases h
    exact fun d hd => hdone d (List.mem_reverse.1 hd)
  · cases hd : typeDeclaration finish id ts with
    | error fault =>
      rw [hd] at h
      cases h
    | ok q =>
      rw [hd] at h
      obtain ⟨⟨decl, next⟩, rest, hlt⟩ := q
      obtain ⟨used, hrest, -⟩ := typeDeclaration_taken _ hd
      have hdecl := typeDeclaration_switches hts _ hd
      exact declarations_switches finish (decl :: done) next rest (isSuffix_rest hts hrest)
        (List.forall_mem_cons.2 ⟨hdecl, hdone⟩) h
termination_by ts.length

end Grammar

open Grammar

/-- Every switch in a method of a program stands in the tokens of the program, with its arms. -/
theorem parse_switches {ts : List Token} {program : Program} (h : parse ts = .ok program)
    {decl : ClassDecl} (hd : .class_ decl ∈ program.declarations) {m : Method}
    (hm : m ∈ decl.constructors ++ decl.methods ++ decl.main.toList) :
    SwitchesStand ts (.block m.body) := by
  unfold parse at h
  cases hp : declarations (finishOf ts) [] 0 ts with
  | error fault =>
    rw [hp] at h
    cases h
  | ok r =>
    rw [hp] at h
    cases h
    have hdecl := declarations_switches _ _ _ ts List.suffix_rfl (List.forall_mem_nil _) hp _ hd
    exact hdecl m hm

end Javelet
