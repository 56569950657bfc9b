import Javelet.Proofs.Lowering.Labels

/-!
# Where statements are lowered

A site is a statement together with everything its lowering depends on, and with the code of
the method before it. `Part` leads from a site to the sites of the statements right inside of
it. Every site that is reached from the body of a method holds a part of the code of the method,
and labels from outside are drawn before those of the site.
-/
namespace Javelet.Lowering

open Assembly

/-- A statement at its place in a method. -/
structure Site where
  env : Env
  join : Option Label
  statement : Statement
  /-- The first free label when the statement is lowered. -/
  first : Label
  /-- The code of the method before the statement. -/
  before : Segment

/-- The sites of statements that are lowered in order. -/
inductive Listed (env : Env) : Segment → Label → List Statement → Site → Prop
  | head {before : Segment} {first : Label} {s : Statement} {ss : List Statement} :
      Listed env before first (s :: ss) ⟨env, none, s, first, before⟩
  | tail {before code : Segment} {first middle : Label} {s : Statement} {ss : List Statement}
      {site : Site} : Yields (statement env none s) first code middle →
      Listed env (before ++ code) middle ss site → Listed env before first (s :: ss) site

/-- The sites of case bodies, as blocks. -/
inductive CaseListed (env : Env) : Segment → Label → Label → List Case → Site → Prop
  | head {before : Segment} {label first : Label} {c : Case} {cases : List Case} :
      CaseListed env before label first (c :: cases)
        ⟨env, none, .block c.body, first, before ++ [.label label]⟩
  | tail {before code : Segment} {label first middle : Label} {c : Case} {cases : List Case}
      {site : Site} : Yields (block env c.body) first code middle →
      CaseListed env (before ++ .label label :: code) (label + 1) middle cases site →
      CaseListed env before label first (c :: cases) site

/-- From a site to the sites right inside of it. -/
inductive Part : Site → Site → Prop
  | block {env join b first before site} : Listed (env.enter b.id) before first b.statements site →
      Part ⟨env, join, .block b, first, before⟩ site
  | conditionalBody {env join p e body otherwise first middle before decision} :
      Yields (test env e first (otherwiseLabel first (join.getD (first + 1)) otherwise))
        (first + 2 + otherwise.toList.length) decision middle →
      Part ⟨env, join, .conditional p e body otherwise, first, before⟩
        ⟨env, none, body, middle, before ++ decision ++ [.label first]⟩
  | conditionalElse {env join p e body s first middle middle' before decision inner} :
      Yields (test env e first (first + 2)) (first + 3) decision middle →
      Yields (statement env none body) middle inner middle' →
      Part ⟨env, join, .conditional p e body (some s), first, before⟩
        ⟨env, if s.isConditional then some (join.getD (first + 1)) else none, s, middle',
          before ++ decision ++ .label first :: inner ++
            [.op (.goto (join.getD (first + 1))), .label (first + 2)]⟩
  | whileBody {env join p e body first middle before decision} :
      Yields (test env e (first + 1) (first + 2)) (first + 3) decision middle →
      Part ⟨env, join, .whileLoop p e body, first, before⟩
        ⟨env.inside ⟨some first, first + 2⟩, none, body, middle,
          before ++ .label first :: decision ++ [.label (first + 1)]⟩
  | forBody {env join p id init e update body first top middle before code decision} :
      Yields (forInit (env.enter id) init) first code top →
      Yields (forTest (env.enter id) e (top + 1) (top + 3)) (top + 4) decision middle →
      Part ⟨env, join, .forLoop p id init e update body, first, before⟩
        ⟨(env.enter id).inside ⟨some (top + 2), top + 3⟩, none, body, middle,
          before ++ code ++ .label top :: decision ++ [.label (top + 1)]⟩
  | forInit {env join p id i e update body first before} :
      Part ⟨env, join, .forLoop p id (some i) e update body, first, before⟩
        ⟨env.enter id, none, i.asStatement, first, before⟩
  | forUpdate {env join p id init e a body first top middle middle' before code decision inner} :
      Yields (forInit (env.enter id) init) first code top →
      Yields (forTest (env.enter id) e (top + 1) (top + 3)) (top + 4) decision middle →
      Yields (statement ((env.enter id).inside ⟨some (top + 2), top + 3⟩) none body) middle
        inner middle' →
      Part ⟨env, join, .forLoop p id init e (some a) body, first, before⟩
        ⟨env.enter id, none, .action a, middle',
          before ++ code ++ .label top :: decision ++ .label (top + 1) :: inner ++
            [.label (top + 2)]⟩
  | caseBody {env join p id e cases default_ first slot store label finish tests before site} :
      finish = label + cases.length + default_.toList.length →
      env.arena.reservedSlot id = some slot →
      Yields (selector env e ⟨slot, .int⟩) first store label →
      Yields (caseTests ⟨slot, .int⟩ label cases) (finish + 1) tests (finish + 1) →
      CaseListed (env.inside ⟨none, finish⟩)
        (before ++ store ++ tests ++ [.op (.goto (label + cases.length))]) label (finish + 1)
        cases site →
      Part ⟨env, join, .switch p id e cases default_, first, before⟩ site
  | defaultBody {env join p id e cases b first slot store label finish tests bodies middle
      before} :
      finish = label + cases.length + 1 →
      env.arena.reservedSlot id = some slot →
      Yields (selector env e ⟨slot, .int⟩) first store label →
      Yields (caseTests ⟨slot, .int⟩ label cases) (finish + 1) tests (finish + 1) →
      Yields (caseBodies (env.inside ⟨none, finish⟩) [] label cases) (finish + 1) bodies middle →
      Part ⟨env, join, .switch p id e cases (some b), first, before⟩
        ⟨env.inside ⟨none, finish⟩, none, .block b, middle,
          before ++ store ++ tests ++ .op (.goto (label + cases.length)) :: bodies ++
            [.label (label + cases.length)]⟩

/-- The sites inside of a site, at any depth. -/
inductive Inside (root : Site) : Site → Prop
  | refl : Inside root root
  | step {site site' : Site} : Inside root site → Part site site' → Inside root site'

/-- A site holds a part of the code: what its statement is lowered to. -/
def Site.Fits (whole : Segment) (site : Site) (code after : Segment) (next : Label) : Prop :=
  Yields (Lowering.statement site.env site.join site.statement) site.first code next ∧
    whole = site.before ++ code ++ after

/-- The targets of jumps out of a node are drawn before a label. -/
def Env.Below (env : Env) (n : Nat) : Prop :=
  ∀ t ∈ env.targets, t.break_ < n ∧ ∀ l ∈ t.continue_, l < n

/-- The labels that code at a site jumps to from outside are drawn before. -/
structure Site.Bounded (site : Site) : Prop where
  targets : site.env.Below site.first
  join : ∀ l ∈ site.join, l < site.first

theorem Env.Below.mono {env : Env} {n n' : Nat} (h : env.Below n) (hn : n ≤ n') :
    env.Below n' := by
  intro t ht
  obtain ⟨hb, hc⟩ := h t ht
  exact ⟨Nat.lt_of_lt_of_le hb hn, fun l hl => Nat.lt_of_lt_of_le (hc l hl) hn⟩

theorem Env.Below.enter {env : Env} {n : Nat} (h : env.Below n) (id : NodeId) :
    (env.enter id).Below n := h

theorem Env.Below.inside {env : Env} {n : Nat} (h : env.Below n) {t : Targets}
    (hb : t.break_ < n) (hc : ∀ l ∈ t.continue_, l < n) : (env.inside t).Below n := by
  intro t' ht'
  rcases List.mem_cons.1 ht' with rfl | ht'
  · exact ⟨hb, hc⟩
  · exact h t' ht'

theorem Env.Below.breakTarget {env : Env} {n : Nat} (h : env.Below n) {l : Label}
    (hl : env.breakTarget? = some l) : l < n := by
  simp only [Env.breakTarget?, Option.map_eq_some_iff] at hl
  obtain ⟨t, ht, rfl⟩ := hl
  exact (h t (List.mem_of_head? ht)).1

theorem Env.Below.continueTarget {env : Env} {n : Nat} (h : env.Below n) {l : Label}
    (hl : env.continueTarget? = some l) : l < n := by
  obtain ⟨t, ht, hl⟩ := List.exists_of_findSome?_eq_some hl
  exact (h t ht).2 l hl

variable {whole : Segment} {site site' : Site}

theorem Listed.fits {env : Env} {before code after : Segment} {first next : Label}
    {ss : List Statement} (h : Listed env before first ss site)
    (hy : Yields (statements env [] ss) first code next) (hw : whole = before ++ code ++ after) :
    ∃ code after next, site.Fits whole code after next := by
  induction h generalizing code with
  | head =>
    obtain ⟨c, rest, middle, hc, -, rfl⟩ := yields_statements_cons.1 hy
    exact ⟨c, rest ++ after, middle, hc, by simp [hw]⟩
  | tail hs _ ih =>
    obtain ⟨c, rest, middle, hc, hrest, rfl⟩ := yields_statements_cons.1 hy
    obtain ⟨rfl, rfl⟩ := hs.unique hc
    exact ih hrest (by simp [hw])

theorem CaseListed.fits {env : Env} {before code after : Segment} {label first next : Label}
    {cases : List Case} (h : CaseListed env before label first cases site)
    (hy : Yields (caseBodies env [] label cases) first code next)
    (hw : whole = before ++ code ++ after) : ∃ code after next, site.Fits whole code after next := by
  induction h generalizing code with
  | head =>
    obtain ⟨body, rest, middle, hbody, -, rfl⟩ := yields_caseBodies_cons.1 hy
    exact ⟨body, rest ++ after, middle, by rw [statement]; exact hbody, by simp [hw]⟩
  | tail hs _ ih =>
    obtain ⟨body, rest, middle, hbody, hrest, rfl⟩ := yields_caseBodies_cons.1 hy
    obtain ⟨rfl, rfl⟩ := hs.unique hbody
    exact ih hrest (by simp [hw])

/-- The sites inside of a site hold parts of its code. -/
theorem Part.fits {code after : Segment} {next : Label} (h : Part site site')
    (hf : site.Fits whole code after next) : ∃ code after next, site'.Fits whole code after next := by
  obtain ⟨hy, hw⟩ := hf
  cases h with
  | block hl =>
    simp only [statement] at hy
    exact hl.fits (yields_block.1 hy) hw
  | conditionalBody hd =>
    obtain ⟨decision, inner, rest, middle, middle', hd', hi, hr, rfl⟩ := yields_conditional.1 hy
    obtain ⟨rfl, rfl⟩ := hd.unique hd'
    exact ⟨inner, _, _, hi, by simp [hw]; rfl⟩
  | conditionalElse hd hi =>
    obtain ⟨decision, inner, rest, middle, middle', hd', hi', hr, rfl⟩ := yields_conditional.1 hy
    obtain ⟨rfl, rfl⟩ := hd.unique hd'
    obtain ⟨rfl, rfl⟩ := hi.unique hi'
    rcases yields_elseBranch.1 hr with ⟨hs, c, hc, rfl⟩ | ⟨hs, c, hc, rfl⟩
    · exact ⟨c, _, _, by simpa [hs] using hc, by simp [hw, otherwiseLabel]; rfl⟩
    · exact ⟨c, _, _, by simpa [hs] using hc, by simp [hw, otherwiseLabel]; rfl⟩
  | whileBody hd =>
    obtain ⟨decision, inner, middle, hd', hi, rfl⟩ := yields_whileLoop.1 hy
    obtain ⟨rfl, rfl⟩ := hd.unique hd'
    exact ⟨inner, _, _, hi, by simp [hw]; rfl⟩
  | forBody hb hd =>
    obtain ⟨before, decision, inner, tail, top, middle, middle', hb', hd', hi, ha, rfl⟩ :=
      yields_forLoop.1 hy
    obtain ⟨rfl, rfl⟩ := hb.unique hb'
    obtain ⟨rfl, rfl⟩ := hd.unique hd'
    exact ⟨inner, _, _, hi, by simp [hw]; rfl⟩
  | @forInit env join p id i e update body first before =>
    obtain ⟨code, decision, inner, tail, top, middle, middle', hb, hd, hi, ha, rfl⟩ :=
      yields_forLoop.1 hy
    refine ⟨code, _, top, ?_, by simp [hw]; rfl⟩
    cases i with
    | declaration v =>
      rw [ForInit.asStatement, statement]
      exact hb
    | assignment a =>
      rw [ForInit.asStatement, statement]
      exact hb
  | forUpdate hb hd hi =>
    obtain ⟨before, decision, inner, tail, top, middle, middle', hb', hd', hi', ha, rfl⟩ :=
      yields_forLoop.1 hy
    obtain ⟨rfl, rfl⟩ := hb.unique hb'
    obtain ⟨rfl, rfl⟩ := hd.unique hd'
    obtain ⟨rfl, rfl⟩ := hi.unique hi'
    exact ⟨tail, _, _, by rw [statement]; exact ha, by simp [hw]; rfl⟩
  | caseBody hfin hslot hs ht hl =>
    obtain ⟨slot, store, tests, bodies, last, label, miss, finish, middle, rfl, rfl, hslot', hs',
      ht', hb, hd, rfl⟩ := yields_switch.1 hy
    obtain rfl := Option.some.inj (hslot.symm.trans hslot')
    obtain ⟨rfl, rfl⟩ := hs.unique hs'
    subst hfin
    obtain ⟨rfl, -⟩ := ht.unique ht'
    exact hl.fits hb (by simp [hw]; rfl)
  | defaultBody hfin hslot hs ht hb =>
    obtain ⟨slot, store, tests, bodies, last, label, miss, finish, middle, rfl, rfl, hslot', hs',
      ht', hb', hd, rfl⟩ := yields_switch.1 hy
    obtain rfl := Option.some.inj (hslot.symm.trans hslot')
    obtain ⟨rfl, rfl⟩ := hs.unique hs'
    simp only [Option.toList_some, List.length_singleton] at ht' hb' hd
    subst hfin
    obtain ⟨rfl, -⟩ := ht.unique ht'
    obtain ⟨rfl, rfl⟩ := hb.unique hb'
    obtain ⟨body, hbody, rfl⟩ := yields_defaultBody.1 hd
    exact ⟨body, _, _, by rw [statement]; exact hbody, by simp [hw]; rfl⟩

theorem Listed.bounded {env : Env} {before : Segment} {first : Label} {ss : List Statement}
    (h : Listed env before first ss site) (hb : env.Below first) : site.Bounded := by
  induction h with
  | head => exact ⟨hb, nofun⟩
  | tail hs _ ih => exact ih (hb.mono (statement_labelled _ hs).le)

theorem CaseListed.bounded {env : Env} {before : Segment} {label first : Label}
    {cases : List Case} (h : CaseListed env before label first cases site)
    (hb : env.Below first) : site.Bounded := by
  induction h with
  | head => exact ⟨hb, nofun⟩
  | tail hs _ ih =>
    exact ih (hb.mono (block_labelled (fun s _ => statement_labelled s) hs).le)

/-- The sites inside of a site draw their labels later. -/
theorem Part.bounded (h : Part site site') (hb : site.Bounded) : site'.Bounded := by
  cases h with
  | block hl => exact hl.bounded (hb.targets.enter _)
  | conditionalBody hd =>
    have hle := (test_labelled hd).le
    exact ⟨hb.targets.mono (by dsimp only; omega), nofun⟩
  | @conditionalElse env join p e body s first middle middle' before decision inner hd hi =>
    have hle := (test_labelled hd).le
    have hle' := (statement_labelled _ hi).le
    refine ⟨hb.targets.mono (by dsimp only; omega), ?_⟩
    intro l hl
    split at hl
    · cases join with
      | some j =>
        cases hl
        have hj : j < first := hb.join j rfl
        exact Nat.lt_of_lt_of_le hj (by dsimp only; omega)
      | none =>
        cases hl
        exact Nat.lt_of_lt_of_le (Nat.lt_succ_self (first + 1)) (by dsimp only; omega)
    · cases hl
  | @whileBody env join p e body first middle before decision hd =>
    have hle := (test_labelled hd).le
    refine ⟨(hb.targets.mono (by dsimp only; omega)).inside ?_ ?_, nofun⟩
    · exact Nat.lt_of_lt_of_le (Nat.lt_succ_self _) hle
    · rintro l hl
      cases hl
      exact Nat.lt_of_lt_of_le (Nat.lt_add_of_pos_right (by omega)) hle
  | @forBody env join p id init e update body first top middle before code decision hi hd =>
    have hle := (forInit_labelled hi).le
    have hle' := (forTest_labelled hd).le
    refine ⟨((hb.targets.enter id).mono (by dsimp only; omega)).inside ?_ ?_, nofun⟩
    · exact Nat.lt_of_lt_of_le (Nat.lt_succ_self _) hle'
    · rintro l hl
      cases hl
      exact Nat.lt_of_lt_of_le (Nat.add_lt_add_left (by omega) top) hle'
  | forInit => exact ⟨hb.targets.enter _, nofun⟩
  | @forUpdate env join p id init e a body first top middle middle' before code decision inner hi
      hd hs =>
    have hle := (forInit_labelled hi).le
    have hle' := (forTest_labelled hd).le
    have hle'' := (statement_labelled _ hs).le
    exact ⟨(hb.targets.enter id).mono (by dsimp only; omega), nofun⟩
  | caseBody hfin _ hs _ hl =>
    have hle := (selector_labelled hs).le
    subst hfin
    refine hl.bounded ((hb.targets.mono (by dsimp only; omega)).inside ?_ nofun)
    exact Nat.lt_succ_self _
  | defaultBody hfin _ hs _ hc =>
    have hle := (selector_labelled hs).le
    obtain ⟨hle', -⟩ := caseBodies_count (fun c _ s _ => statement_labelled s) hc
    subst hfin
    refine ⟨(hb.targets.mono (by dsimp only; omega)).inside ?_ nofun, nofun⟩
    exact Nat.lt_of_lt_of_le (Nat.lt_succ_self _) hle'

theorem Inside.fits {root : Site} {code after : Segment} {next : Label} (h : Inside root site)
    (hf : root.Fits whole code after next) : ∃ code after next, site.Fits whole code after next := by
  induction h with
  | refl => exact ⟨code, after, next, hf⟩
  | step _ hp ih =>
    obtain ⟨_, _, _, hf⟩ := ih
    exact hp.fits hf

theorem Inside.bounded {root : Site} (h : Inside root site) (hb : root.Bounded) :
    site.Bounded := by
  induction h with
  | refl => exact hb
  | step _ hp ih => exact hp.bounded ih

/-! ## All statements have sites -/

theorem exists_listed {env : Env} {before code : Segment} {first next : Label}
    {ss : List Statement} (hy : Yields (statements env [] ss) first code next) {s : Statement}
    (hs : s ∈ ss) : ∃ site, Listed env before first ss site ∧ site.statement = s := by
  induction ss generalizing before first code with
  | nil => cases hs
  | cons s' ss ih =>
    obtain ⟨c, rest, middle, hc, hrest, -⟩ := yields_statements_cons.1 hy
    rcases List.mem_cons.1 hs with rfl | hs
    · exact ⟨_, .head, rfl⟩
    · obtain ⟨site, hl, he⟩ := ih hrest hs
      exact ⟨site, .tail hc hl, he⟩

theorem exists_caseListed {env : Env} {before code : Segment} {label first next : Label}
    {cases : List Case} (hy : Yields (caseBodies env [] label cases) first code next) {c : Case}
    (hc : c ∈ cases) :
    ∃ site, CaseListed env before label first cases site ∧ site.statement = .block c.body := by
  induction cases generalizing before label first code with
  | nil => cases hc
  | cons c' cases ih =>
    obtain ⟨body, rest, middle, hbody, hrest, -⟩ := yields_caseBodies_cons.1 hy
    rcases List.mem_cons.1 hc with rfl | hc
    · exact ⟨_, .head, rfl⟩
    · obtain ⟨site, hl, he⟩ := ih hrest hc
      exact ⟨site, .tail hbody hl, he⟩

/-- Every statement right inside of the statement of a site has a site. -/
theorem exists_part {code after : Segment} {next : Label} (hf : site.Fits whole code after next)
    {s : Statement} (hs : s ∈ site.statement.inner) :
    ∃ site', Part site site' ∧ site'.statement = s := by
  obtain ⟨env, join, statement', first, before⟩ := site
  obtain ⟨hy, -⟩ := hf
  cases statement' with
  | block b =>
    simp only [statement] at hy
    obtain ⟨site', hl, he⟩ := exists_listed (yields_block.1 hy) hs
    exact ⟨site', .block hl, he⟩
  | conditional p e body otherwise =>
    obtain ⟨decision, inner, rest, middle, middle', hd, hi, -, -⟩ := yields_conditional.1 hy
    rcases List.mem_cons.1 hs with rfl | hs
    · exact ⟨_, .conditionalBody hd, rfl⟩
    · cases otherwise with
      | none => cases hs
      | some s' =>
        obtain rfl := List.mem_singleton.1 hs
        exact ⟨_, .conditionalElse hd hi, rfl⟩
  | whileLoop p e body =>
    obtain ⟨decision, inner, middle, hd, -, -⟩ := yields_whileLoop.1 hy
    obtain rfl := List.mem_singleton.1 hs
    exact ⟨_, .whileBody hd, rfl⟩
  | forLoop p id init e update body =>
    obtain ⟨code', decision, inner, tail, top, middle, middle', hb, hd, hi, -, -⟩ :=
      yields_forLoop.1 hy
    simp only [Statement.inner, List.mem_append, List.mem_map, Option.mem_toList,
      List.mem_singleton] at hs
    rcases hs with (⟨i, rfl, rfl⟩ | ⟨a, rfl, rfl⟩) | rfl
    · exact ⟨_, .forInit, rfl⟩
    · exact ⟨_, .forUpdate hb hd hi, rfl⟩
    · exact ⟨_, .forBody hb hd, rfl⟩
  | switch p id e cases default_ =>
    obtain ⟨slot, store, tests, bodies, last, label, miss, finish, middle, rfl, rfl, hslot, hsel,
      ht, hb, -, -⟩ := yields_switch.1 hy
    simp only [Statement.inner, List.mem_map, List.mem_append, Option.mem_toList] at hs
    obtain ⟨b, ⟨c, hc, rfl⟩ | rfl, rfl⟩ := hs
    · obtain ⟨site', hl, he⟩ := exists_caseListed hb hc
      exact ⟨site', .caseBody rfl hslot hsel ht hl, he⟩
    · exact ⟨_, .defaultBody rfl hslot hsel ht hb, rfl⟩
  | jump p j => cases hs
  | action a => cases hs
  | declaration v => cases hs

end Javelet.Lowering
