import Javelet.Proofs.Assembly.Layout
import Javelet.Proofs.Lowering.Entities
import Javelet.Proofs.Lowering.Methods
import Javelet.Proofs.Phrases.Switches
import Javelet.Proofs.Types.Collecting

/-!
# How the bodies of a switch fall through

The bodies of a switch are lowered one behind the other, each behind its label, so control that
falls out of the end of a body goes on with the body behind it, and out of the last one behind the
switch. The cases keep the order in which they stand in the source. The body of the default comes
last, wherever it stands there. Different bodies are emitted in one order only, so control goes
through them as they stand in the source exactly if no case follows the default.
-/
namespace Javelet

/-- The bodies of arms in the order in which they are emitted: those of the cases as they stand,
then that of the default. -/
def emitted (arms : List Arm) : List Block :=
  (arms.filterMap Arm.case?).map Case.body ++ arms.filterMap Arm.default?

def Arm.body : Arm → Block
  | case c => c.body
  | default_ body => body

/-- Arms are emitted as they stand if the default is missing or the last one. -/
theorem emitted_eq_bodies {arms : List Arm}
    (h : arms.dropLast.filterMap Arm.default? = []) : emitted arms = arms.map Arm.body := by
  have hcases : ∀ arms : List Arm, arms.filterMap Arm.default? = [] →
      (arms.filterMap Arm.case?).map Case.body = arms.map Arm.body := by
    intro arms h
    induction arms with
    | nil => rfl
    | cons a arms ih =>
      cases a with
      | case c => simpa [Arm.case?, Arm.body] using ih (by simpa [Arm.default?] using h)
      | default_ body => simp [Arm.default?] at h
  rcases arms.eq_nil_or_concat with rfl | ⟨front, a, rfl⟩
  · rfl
  · rw [List.concat_eq_append] at h ⊢
    rw [List.dropLast_concat] at h
    rw [emitted, List.filterMap_append, List.filterMap_append, h, List.map_append, hcases front h,
      List.map_append]
    cases a <;> simp [Arm.case?, Arm.default?, Arm.body]

theorem emitted_perm (arms : List Arm) : (emitted arms).Perm (arms.map Arm.body) := by
  induction arms with
  | nil => exact .nil
  | cons a arms ih =>
    cases a with
    | case c => exact ih.cons c.body
    | default_ b =>
      have hfirst : emitted (.default_ b :: arms) =
          (arms.filterMap Arm.case?).map Case.body ++ b :: arms.filterMap Arm.default? := rfl
      rw [hfirst]
      exact List.perm_middle.trans (ih.cons b)

/-- Arms with different bodies and one default at most are not emitted as they stand if the default
is not the last one: its body is emitted last. -/
theorem dropLast_of_emitted_eq_bodies {arms : List Arm} (hn : (emitted arms).Nodup)
    (hone : (arms.filterMap Arm.default?).length ≤ 1) (h : emitted arms = arms.map Arm.body) :
    arms.dropLast.filterMap Arm.default? = [] := by
  rcases arms.eq_nil_or_concat with rfl | ⟨front, a, rfl⟩
  · rfl
  rw [List.concat_eq_append] at hn hone h ⊢
  rw [List.dropLast_concat]
  rw [List.filterMap_append, List.length_append] at hone
  cases hfront : front.filterMap Arm.default? with
  | nil => rfl
  | cons b rest =>
    rw [hfront, List.length_cons] at hone
    cases a with
    | default_ b' =>
      have hlast : ([Arm.default_ b'].filterMap Arm.default?).length = 1 := rfl
      omega
    | case c =>
      obtain rfl : rest = [] := List.length_eq_zero_iff.1 (by omega)
      have hemitted : emitted (front ++ [Arm.case c]) =
          ((front.filterMap Arm.case?).map Case.body ++ [c.body]) ++ [b] := by
        simp [emitted, hfront, Arm.case?, Arm.default?]
      have hbodies : (front ++ [Arm.case c]).map Arm.body = front.map Arm.body ++ [c.body] := by
        rw [List.map_append]
        rfl
      rw [hemitted] at hn
      rw [hemitted, hbodies] at h
      obtain rfl : b = c.body := List.singleton_inj.1 (List.append_inj' h rfl).2
      exact ((List.nodup_append.1 hn).2.2 c.body (by simp) c.body (by simp) rfl).elim

namespace Lowering

open Assembly Grammar

/-! ## Sites inside of statements -/

theorem Listed.mem {env : Env} {before : Segment} {first : Label} {ss : List Statement}
    {site : Site} (h : Listed env before first ss site) : site.statement ∈ ss := by
  induction h with
  | head => exact List.mem_cons_self
  | tail _ _ ih => exact List.mem_cons_of_mem _ ih

theorem CaseListed.exists_case {env : Env} {before : Segment} {label first : Label}
    {cases : List Case} {site : Site} (h : CaseListed env before label first cases site) :
    ∃ c ∈ cases, site.statement = .block c.body := by
  induction h with
  | head => exact ⟨_, List.mem_cons_self, rfl⟩
  | tail _ _ ih =>
    obtain ⟨c, hc, hs⟩ := ih
    exact ⟨c, List.mem_cons_of_mem _ hc, hs⟩

/-- The statement of a part stands right inside of the statement. -/
theorem Part.mem_inner {site site' : Site} (h : Part site site') :
    site'.statement ∈ site.statement.inner := by
  cases h with
  | block hl => exact hl.mem
  | conditionalBody _ => exact List.mem_cons_self
  | conditionalElse _ _ => exact List.mem_cons_of_mem _ List.mem_cons_self
  | whileBody _ => exact List.mem_cons_self
  | forBody _ _ => simp [Statement.inner]
  | forInit => simp [Statement.inner]
  | forUpdate _ _ _ => simp [Statement.inner]
  | caseBody _ _ _ _ hl =>
    obtain ⟨c, hc, hs⟩ := hl.exists_case
    rw [hs]
    exact List.mem_map_of_mem (List.mem_append_left _ (List.mem_map_of_mem hc))
  | defaultBody _ _ _ _ _ => simp [Statement.inner]

theorem contains_step {s s' w : Statement} (h : s.Contains s') (hw : w ∈ s'.inner) :
    s.Contains w := by
  induction h with
  | self => exact .inner hw .self
  | inner hs _ ih => exact .inner hs (ih hw)

theorem Inside.contains {root site : Site} (h : Inside root site) :
    root.statement.Contains site.statement := by
  induction h with
  | refl => exact .self
  | step _ hp ih => exact contains_step ih hp.mem_inner

/-- Every statement inside of the body of a method has a site. -/
theorem InMethod.contains {source : String} {mc : MethodCode} {site : Site} {w : Statement}
    (h : InMethod source mc site) (hw : site.statement.Contains w) :
    ∃ mc site, InMethod source mc site ∧ site.statement = w := by
  generalize hs : site.statement = s at hw
  induction hw generalizing mc site with
  | self => exact ⟨mc, site, h, hs⟩
  | inner hinner _ ih =>
    obtain ⟨site', hsite', hs'⟩ := h.inner (hs ▸ hinner)
    exact ih hsite' hs'

/-! ## Bodies in a row -/

/-- At a place of the finished code stands a label and behind it the first of some bodies; the place
behind it is that of the next body, and so on. Behind the last one stands the label that the others
leave off with. -/
inductive FallThrough (whole : Segment) (site : Site) : Nat → Label → List Block → Prop
  | finish {place : Nat} {label : Label} :
      position (printed (listing whole)) label = some place →
      FallThrough whole site place label []
  | body {place : Nat} {label next : Label} {body : Site} {b : Block} {bs : List Block}
      {code after : Segment} : position (printed (listing whole)) label = some place →
      Part site body → body.statement = .block b → body.Fits whole code after next →
      size body.before = place + 1 →
      FallThrough whole site (place + 1 + size code) (label + 1) bs →
      FallThrough whole site place label (b :: bs)

theorem position_listing {whole before after : Segment} {label : Label} {place : Nat}
    (hn : (labelsOf whole).Nodup) (hw : whole = before ++ .label label :: after)
    (hplace : size before = place) :
    position (printed (listing whole)) label = some place := by
  obtain ⟨tail, -, hprinted⟩ := printed_listing whole
  have hfresh : label ∉ labelsOf (written before) := by
    rw [hw, labelsOf_append, labelsOf_label] at hn
    rw [labelsOf_written]
    intro hmem
    exact (List.nodup_append.1 hn).2.2 label hmem label List.mem_cons_self rfl
  rw [hprinted, hw, ← hplace, ← length_written]
  simpa using position_append hfresh (written after ++ written tail)

variable {whole : Segment} {site : Site}

theorem fallThrough_cases {env : Env} {cases : List Case} {bs : List Block}
    {before code after : Segment} {label first next : Label} (hn : (labelsOf whole).Nodup)
    (hpart : ∀ body, CaseListed env before label first cases body → Part site body)
    (hy : Yields (caseBodies env [] label cases) first code next)
    (hw : whole = before ++ code ++ after)
    (h : FallThrough whole site (size (before ++ code)) (label + cases.length) bs) :
    FallThrough whole site (size before) label (cases.map Case.body ++ bs) := by
  induction cases generalizing before label first code with
  | nil =>
    obtain ⟨-, rfl⟩ := yields_caseBodies_nil.1 hy
    rw [List.append_nil] at h
    exact h
  | cons c cases ih =>
    obtain ⟨body, rest, middle, hbody, hrest, rfl⟩ := yields_caseBodies_cons.1 hy
    have hbehind : size before + 1 + size body = size (before ++ .label label :: body) := by
      rw [size_append before, size_label]
      omega
    have hlabel : label + (c :: cases).length = label + 1 + cases.length := by
      rw [List.length_cons, Nat.add_comm cases.length, Nat.add_assoc]
    have hlisted : whole = before ++ .label label :: (body ++ rest ++ after) := by simp [hw]
    have hfits : Site.Fits whole ⟨env, none, .block c.body, first, before ++ [Item.label label]⟩
        body (rest ++ after) middle := by
      refine ⟨?_, by simp [hw]⟩
      rw [statement]
      exact hbody
    refine .body (position_listing hn hlisted rfl) (hpart _ .head) rfl hfits (by simp) ?_
    rw [hbehind]
    refine ih (fun _ hl => hpart _ (.tail hbody hl)) hrest (by simp [hw]) ?_
    rw [← hlabel]
    simpa using h

theorem fallThrough_default {env : Env} {default_ : Option Block} {before code after : Segment}
    {label first next : Label} (hn : (labelsOf whole).Nodup)
    (hpart : ∀ b ∈ default_, Part site ⟨env, none, .block b, first, before ++ [Item.label label]⟩)
    (hy : Yields (defaultBody env label default_) first code next)
    (hw : whole = before ++ code ++ .label (label + default_.toList.length) :: after) :
    FallThrough whole site (size before) label default_.toList := by
  cases default_ with
  | none =>
    obtain ⟨rfl, -⟩ : code = [] ∧ next = first := by simpa [defaultBody] using hy
    exact .finish (position_listing hn (by simpa using hw) rfl)
  | some b =>
    obtain ⟨body, hbody, rfl⟩ := yields_defaultBody.1 hy
    have hlisted : whole = before ++ .label label :: (body ++ .label (label + 1) :: after) := by
      simp [hw]
    have hended : whole = (before ++ .label label :: body) ++ .label (label + 1) :: after := by
      simp [hw]
    have hfits : Site.Fits whole ⟨env, none, .block b, first, before ++ [Item.label label]⟩ body
        (.label (label + 1) :: after) next := by
      refine ⟨?_, by simp [hw]⟩
      rw [statement]
      exact hbody
    refine .body (position_listing hn hlisted rfl) (hpart b rfl) rfl hfits (by simp)
      (.finish (position_listing hn hended ?_))
    simp only [size_append, size_label]
    omega

/-- The bodies of a switch fall through into each other, the cases in their order and then the
default. -/
theorem fallThrough_switch {p : Position} {id : NodeId} {e : Expr} {cases : List Case}
    {default_ : Option Block} {code after : Segment} {next : Label} (hn : (labelsOf whole).Nodup)
    (hs : site.statement = .switch p id e cases default_) (hf : site.Fits whole code after next) :
    ∃ place label, FallThrough whole site place label
      (cases.map Case.body ++ default_.toList) := by
  obtain ⟨env, join, s, first, before⟩ := site
  obtain rfl : s = .switch p id e cases default_ := hs
  obtain ⟨hy, hw⟩ := hf
  obtain ⟨slot, store, tests, bodies, last, label, miss, finish, middle, rfl, rfl, hslot, hstore,
    htests, hbodies, hlast, rfl⟩ := yields_switch.1 hy
  have hcases : whole = before ++ store ++ tests ++
      [Item.op (Instruction.goto (label + cases.length))] ++ bodies ++
      (last ++ .label (label + cases.length + default_.toList.length) :: after) := by simp [hw]
  have hdefault : whole = before ++ store ++ tests ++
      [Item.op (Instruction.goto (label + cases.length))] ++ bodies ++ last ++
      .label (label + cases.length + default_.toList.length) :: after := by simp [hw]
  refine ⟨size (before ++ store ++ tests ++
    [Item.op (Instruction.goto (label + cases.length))]), label, ?_⟩
  refine fallThrough_cases hn (fun _ hl => .caseBody rfl hslot hstore htests hl) hbodies hcases ?_
  refine fallThrough_default hn ?_ hlast hdefault
  rintro b ⟨⟩
  have hpart : Part ⟨env, join, .switch p id e cases (some b), first, before⟩ _ :=
    .defaultBody rfl hslot hstore htests hbodies
  simpa using hpart

/-! ## One order of the bodies -/

theorem CaseListed.unique {env : Env} {cases : List Case} {before : Segment}
    {label first : Label} {body body' : Site} (hn : (cases.map Case.body).Nodup)
    (h : CaseListed env before label first cases body)
    (h' : CaseListed env before label first cases body')
    (hs : body.statement = body'.statement) : body = body' := by
  have hfresh : ∀ {c : Case} {cases : List Case}, ((c :: cases).map Case.body).Nodup →
      ∀ c' ∈ cases, Statement.block c.body ≠ .block c'.body := by
    intro c cases hn c' hc' heq
    rw [List.map_cons, List.nodup_cons, Statement.block.inj heq] at hn
    exact hn.1 (List.mem_map_of_mem hc')
  induction h with
  | head =>
    cases h' with
    | head => rfl
    | tail _ hl =>
      obtain ⟨c', hc', hs'⟩ := hl.exists_case
      exact (hfresh hn c' hc' (hs.trans hs')).elim
  | tail hy hl ih =>
    cases h' with
    | head =>
      obtain ⟨c', hc', hs'⟩ := hl.exists_case
      exact (hfresh hn c' hc' (hs.symm.trans hs')).elim
    | tail hy' hl' =>
      obtain ⟨rfl, rfl⟩ := hy.unique hy'
      exact ih (List.nodup_cons.1 hn).2 hl' hs

/-- Different bodies of a switch have one site each. -/
theorem Part.unique {site body body' : Site} {p : Position} {id : NodeId} {e : Expr}
    {cases : List Case} {default_ : Option Block}
    (hswitch : site.statement = .switch p id e cases default_)
    (hn : (cases.map Case.body ++ default_.toList).Nodup) (h : Part site body)
    (h' : Part site body') (hs : body.statement = body'.statement) : body = body' := by
  obtain ⟨env, join, s, first, before⟩ := site
  obtain rfl : s = .switch p id e cases default_ := hswitch
  obtain ⟨hcases, -, hdisjoint⟩ := List.nodup_append.1 hn
  have hother : ∀ c ∈ cases, ∀ b ∈ default_, Statement.block c.body ≠ .block b := by
    intro c hc b hb heq
    exact hdisjoint c.body (List.mem_map_of_mem hc) b (Option.mem_toList.2 hb)
      (Statement.block.inj heq)
  cases h with
  | caseBody hfin hslot hstore htests hl =>
    cases h' with
    | caseBody hfin' hslot' hstore' htests' hl' =>
      obtain rfl := Option.some.inj (hslot.symm.trans hslot')
      obtain ⟨rfl, rfl⟩ := hstore.unique hstore'
      obtain rfl := hfin.trans hfin'.symm
      obtain ⟨rfl, -⟩ := htests.unique htests'
      exact hl.unique hcases hl' hs
    | defaultBody _ _ _ _ _ =>
      obtain ⟨c, hc, hs'⟩ := hl.exists_case
      exact (hother c hc _ rfl (hs'.symm.trans hs)).elim
  | defaultBody hfin hslot hstore htests hbodies =>
    cases h' with
    | caseBody _ _ _ _ hl' =>
      obtain ⟨c, hc, hs'⟩ := hl'.exists_case
      exact (hother c hc _ rfl (hs'.symm.trans hs.symm)).elim
    | defaultBody hfin' hslot' hstore' htests' hbodies' =>
      obtain rfl := Option.some.inj (hslot.symm.trans hslot')
      obtain ⟨rfl, rfl⟩ := hstore.unique hstore'
      obtain rfl := hfin.trans hfin'.symm
      obtain ⟨rfl, -⟩ := htests.unique htests'
      obtain ⟨rfl, rfl⟩ := hbodies.unique hbodies'
      rfl

/-- One of two bodies of a switch is lowered in front of the other. -/
def EmittedBefore (site : Site) (b b' : Block) : Prop :=
  ∃ body body', Part site body ∧ Part site body' ∧ body.statement = .block b ∧
    body'.statement = .block b' ∧ size body.before < size body'.before

theorem EmittedBefore.asymm {p : Position} {id : NodeId} {e : Expr} {cases : List Case}
    {default_ : Option Block} {b b' : Block}
    (hswitch : site.statement = .switch p id e cases default_)
    (hn : (cases.map Case.body ++ default_.toList).Nodup) (h : EmittedBefore site b b')
    (h' : EmittedBefore site b' b) : False := by
  obtain ⟨first, second, hfirst, hsecond, hb, hb', hlt⟩ := h
  obtain ⟨first', second', hfirst', hsecond', hc, hc', hlt'⟩ := h'
  obtain rfl := hfirst.unique hswitch hn hsecond' (hb.trans hc'.symm)
  obtain rfl := hsecond.unique hswitch hn hfirst' (hb'.trans hc.symm)
  omega

theorem FallThrough.exists_site {place : Nat} {label : Label} {bs : List Block}
    (h : FallThrough whole site place label bs) :
    ∀ b ∈ bs, ∃ body, Part site body ∧ body.statement = .block b ∧ place < size body.before := by
  induction h with
  | finish => exact nofun
  | body _ hpart hb _ hplace _ ih =>
    refine List.forall_mem_cons.2 ⟨⟨_, hpart, hb, by omega⟩, ?_⟩
    intro b' hb'
    obtain ⟨body', hpart', hs, hlt⟩ := ih b' hb'
    exact ⟨body', hpart', hs, by omega⟩

/-- Bodies that fall through into each other are lowered in their order. -/
theorem FallThrough.pairwise {place : Nat} {label : Label} {bs : List Block}
    (h : FallThrough whole site place label bs) : bs.Pairwise (EmittedBefore site) := by
  induction h with
  | finish => exact .nil
  | body _ hpart hb _ hplace hrest ih =>
    refine .cons ?_ ih
    intro b' hb'
    obtain ⟨body', hpart', hs, hlt⟩ := hrest.exists_site b' hb'
    exact ⟨_, body', hpart, hpart', hb, hs, by omega⟩

/-- Different bodies of a switch fall through into each other in one order only. -/
theorem FallThrough.eq_of_perm {p : Position} {id : NodeId} {e : Expr} {cases : List Case}
    {default_ : Option Block} {place place' : Nat} {label label' : Label} {bs bs' : List Block}
    (hswitch : site.statement = .switch p id e cases default_)
    (hn : (cases.map Case.body ++ default_.toList).Nodup)
    (h : FallThrough whole site place label bs) (h' : FallThrough whole site place' label' bs')
    (hperm : bs.Perm bs') : bs = bs' := by
  refine List.Perm.eq_of_pairwise ?_ h.pairwise h'.pairwise hperm
  intro b b' _ _ hbefore hbehind
  exact (hbefore.asymm hswitch hn hbehind).elim

/-! ## The bodies of a switch are different -/

theorem sublist_statementNodes {s : Statement} {ss : List Statement} (h : s ∈ ss) :
    s.nodes.Sublist (statementNodes ss) := by
  induction ss with
  | nil => cases h
  | cons s' ss ih =>
    rw [statementNodes]
    rcases List.mem_cons.1 h with rfl | h
    · exact List.sublist_append_left ..
    · exact (ih h).trans (List.sublist_append_right ..)

theorem bodies_nodes_sublist (cases : List Case) (default_ : Option Block) :
    ((cases.map Case.body ++ default_.toList).flatMap Block.nodes).Sublist
      (caseNodes cases ++ defaultNodes default_) := by
  induction cases with
  | nil =>
    cases default_ with
    | none => exact .slnil
    | some b => simp [caseNodes, defaultNodes]
  | cons c cases ih =>
    obtain ⟨p, q, l, b⟩ := c
    rw [caseNodes, List.append_assoc]
    exact (List.Sublist.refl b.nodes).append ih

theorem nodes_sublist_of_mem {α : Type} {f : α → List NodeId} {x : α} {xs : List α} (h : x ∈ xs) :
    (f x).Sublist (xs.flatMap f) :=
  List.sublist_flatten_of_mem (List.mem_map_of_mem h)

/-- The numbers in a statement right inside of another one are numbers in that one. -/
theorem nodes_sublist_of_inner {s w : Statement} (h : w ∈ s.inner) : w.nodes.Sublist s.nodes := by
  cases s with
  | block b =>
    rw [Statement.nodes, Block.nodes_eq]
    exact (sublist_statementNodes h).cons _
  | conditional p e body otherwise =>
    rw [Statement.nodes]
    rcases List.mem_cons.1 h with rfl | h
    · exact List.sublist_append_left ..
    · obtain rfl := Option.mem_toList.1 h
      rw [otherwiseNodes]
      exact List.sublist_append_right ..
  | whileLoop p e body =>
    rw [List.mem_singleton.1 h, Statement.nodes]
  | forLoop p id init e update body =>
    rw [Statement.inner, List.mem_append, List.mem_append] at h
    rcases h with (h | h) | h
    · obtain ⟨i, -, rfl⟩ := List.mem_map.1 h
      cases i with
      | _ => exact List.nil_sublist _
    · obtain ⟨a, -, rfl⟩ := List.mem_map.1 h
      exact List.nil_sublist _
    · rw [List.mem_singleton.1 h, Statement.nodes]
      exact List.sublist_cons_self ..
  | switch p id e cases default_ =>
    obtain ⟨b, hb, rfl⟩ := List.mem_map.1 h
    rw [Statement.nodes, Statement.nodes]
    exact ((nodes_sublist_of_mem hb).trans (bodies_nodes_sublist cases default_)).cons _
  | jump p j => cases h
  | action a => cases h
  | declaration v => cases h

theorem nodes_sublist_of_contains {s w : Statement} (h : s.Contains w) :
    w.nodes.Sublist s.nodes := by
  induction h with
  | self => exact .refl _
  | inner hinner _ ih => exact ih.trans (nodes_sublist_of_inner hinner)

/-- The bodies of a switch whose numbers are different are different. -/
theorem nodup_bodies {p : Position} {id : NodeId} {e : Expr} {cases : List Case}
    {default_ : Option Block} (h : (Statement.switch p id e cases default_).nodes.Nodup) :
    (cases.map Case.body ++ default_.toList).Nodup := by
  rw [Statement.nodes, List.nodup_cons] at h
  have hall := h.2.sublist (bodies_nodes_sublist cases default_)
  rw [List.Nodup, List.pairwise_flatMap] at hall
  refine hall.2.imp ?_
  rintro b _ hne rfl
  exact hne b.id b.id_mem_nodes b.id b.id_mem_nodes rfl

/-- In a program that is read, every statement in the body of a method has numbers of its own. -/
theorem nodup_nodes_of_contains {source : String} {program : Program} {decl : ClassDecl}
    {m : Method} {w : Statement} (hparse : parseSource source = .ok program)
    (hd : .class_ decl ∈ program.declarations)
    (hm : m ∈ decl.constructors ++ decl.methods ++ decl.main.toList)
    (hw : (Statement.block m.body).Contains w) : w.nodes.Nodup := by
  have hmethod : m.body.nodes.Sublist decl.nodes := by
    have hmem : m.nodes.Sublist decl.nodes := (nodes_sublist_of_mem hm).cons _
    exact (List.sublist_cons_self ..).trans hmem
  have hclass : decl.nodes.Sublist program.nodes := nodes_sublist_of_mem (f := TypeDecl.nodes) hd
  have hstatement : w.nodes.Sublist m.body.nodes := by
    simpa only [Statement.nodes] using nodes_sublist_of_contains hw
  exact (wellNamed_of_parseSource hparse).2.sublist (hstatement.trans (hmethod.trans hclass))

/-! ## Switches in the source -/

theorem exists_switch_of_standSwitch {part : List Token} {arms : List Arm} {s : Statement}
    (h : StandSwitch part arms s) : ∃ p id e cases default_,
      s = .switch p id e cases default_ ∧ cases = arms.filterMap Arm.case? ∧
        default_.toList = arms.filterMap Arm.default? := by
  cases h with
  | mk _ _ _ _ _ hcases hdefault => exact ⟨_, _, _, _, _, rfl, hcases, hdefault⟩

/-- The bodies of a switch that stands in the source are emitted, those of the cases first; as they
stand if no case follows the default, and only then. -/
def SwitchEmitted (tokens : List Token) (mc : MethodCode) (site : Site) : Prop :=
  ∃ part arms place label, part <:+: tokens ∧ StandSwitch part arms site.statement ∧
    FallThrough mc.code site place label (emitted arms) ∧
    (arms.dropLast.filterMap Arm.default? = [] →
      FallThrough mc.code site place label (arms.map Arm.body)) ∧
    ∀ place' label', FallThrough mc.code site place' label' (arms.map Arm.body) →
      arms.dropLast.filterMap Arm.default? = []

/-- The body of a method of a class is at the site of a body. -/
theorem BodySite.exists_method {env : Env} {superclass : String} {decl : ClassDecl}
    {mc : MethodCode} {site : Site} (h : BodySite env superclass decl mc site) :
    ∃ m ∈ decl.constructors ++ decl.methods ++ decl.main.toList,
      site.statement = .block m.body := by
  cases h with
  | method hm _ =>
    rw [List.append_assoc]
    exact ⟨_, List.mem_append_right _ hm, rfl⟩
  | constructor hm _ _ =>
    rw [List.append_assoc]
    exact ⟨_, List.mem_append_left _ hm, rfl⟩

theorem switchEmitted_of_inMethod {source : String} {mc : MethodCode} {site : Site}
    (h : InMethod source mc site) (hs : site.statement.isSwitch = true) :
    ∃ tokens, tokenize source = .ok tokens ∧ SwitchEmitted tokens mc site := by
  obtain ⟨-, hn, code, after, next, hf⟩ := h.fits
  obtain ⟨program, analysis, sections, decl, c, body, ha, hd, -, -, hbody, hin⟩ := h.found
  obtain ⟨tokens, htokens, hparse⟩ := parseSource_eq_ok_iff.1 ha.parsed
  obtain ⟨m, hm, hstatement⟩ := hbody.exists_method
  have hcontains := hin.contains
  rw [hstatement] at hcontains
  obtain ⟨part, arms, hpart, hstand⟩ := parse_switches hparse hd hm _ hcontains hs
  obtain ⟨p, id, e, cases, default_, hswitch, hcases, hdefault⟩ := exists_switch_of_standSwitch hstand
  obtain ⟨place, label, hfall⟩ := fallThrough_switch hn hswitch hf
  have hdifferent := nodup_bodies (hswitch ▸ nodup_nodes_of_contains ha.parsed hd hm hcontains)
  have hemitted : emitted arms = cases.map Case.body ++ default_.toList := by
    rw [hcases, hdefault, emitted]
  rw [← hemitted] at hfall
  refine ⟨tokens, htokens, part, arms, place, label, hpart, hstand, hfall, ?_, ?_⟩
  · intro hlast
    rw [← emitted_eq_bodies hlast]
    exact hfall
  · intro place' label' hbodies
    have horder := hfall.eq_of_perm hswitch hdifferent hbodies (emitted_perm arms)
    refine dropLast_of_emitted_eq_bodies (hemitted ▸ hdifferent) ?_ horder
    rw [← hdefault]
    cases default_ <;> simp

/-- A switch with its default between two cases. -/
def middleDefault : String :=
  "class A { int f(int x) { switch (x) { case 0: x = 5; default: x = 1; case 1: } return x; } }"

theorem mem_zip_tail {α : Type} (front : List α) (a b : α) (back : List α) :
    (a, b) ∈ (front ++ a :: b :: back).zip (front ++ a :: b :: back).tail := by
  induction front with
  | nil => exact List.mem_cons_self
  | cons x front ih =>
    cases front with
    | nil => exact List.mem_cons_of_mem _ ih
    | cons y front => exact List.mem_cons_of_mem _ ih

/-- A case and a default stand one of them first; the case does not if no `case` is right behind
a brace. -/
theorem default_first {tokens part : List Token} {arms : List Arm} {p : Position} {id : NodeId}
    {e : Expr} {c : Case} {b : Block}
    (hstand : StandSwitch part arms (.switch p id e [c] (some b))) (hpart : part <:+: tokens)
    (hno : (tokens.zip tokens.tail).all (fun pair =>
      !(pair.1.kind == .symbol .leftBrace && pair.2.isKeyword "case")) = true) :
    arms = [.default_ b, .case c] := by
  cases hstand with
  | @mk around word opening closing cs ts _ _ _ _ _ hword hselector hopen harms hclose hcases
      hdefault =>
    cases harms with
    | nil => cases hcases
    | @case word' colon ls bs rest c' arms hword' hposition hlabel hcolon hbody hrest =>
      obtain ⟨front, back, rfl⟩ := hpart
      have hpair := mem_zip_tail (front ++ word :: cs) opening word'
        (ls ++ colon :: (bs ++ rest) ++ [closing] ++ back)
      have hnone := List.all_eq_true.1 hno (opening, word') (by simpa using hpair)
      simp [hopen, hword'] at hnone
    | @default_ word' colon bs rest body arms hword' hcolon hbody hrest =>
      cases hrest with
      | nil => cases hcases
      | @case word'' colon' ls bs' rest' c' arms hword'' hposition hlabel hcolon' hbody' hrest =>
        obtain ⟨rfl, hcases⟩ : c = c' ∧ [] = arms.filterMap Arm.case? := List.cons.inj hcases
        obtain ⟨rfl, hdefault⟩ : b = body ∧ [] = arms.filterMap Arm.default? :=
          List.cons.inj hdefault
        cases arms with
        | nil => rfl
        | cons a arms =>
          cases a with
          | case c' => cases hcases
          | default_ b' => cases hdefault
      | @default_ _ _ _ _ body' arms _ _ _ _ =>
        have htwo : [b] = body :: body' :: arms.filterMap Arm.default? := hdefault
        cases htwo

/-- Whether a statement is a switch with one case and a default. -/
def hasCaseAndDefault : Statement → Bool
  | .switch _ _ _ [_] (some _) => true
  | _ => false

/-- A switch with its default in front of a case. -/
def earlyDefault : String :=
  "class A { int f(int x) { switch (x) { default: x = 1; case 1: x = 2; } return x; } }"

end Lowering

end Javelet
