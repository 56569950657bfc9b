import Javelet.Proofs.Lowering.Assigned

/-!
# Variables are stored before they are loaded in compiled programs

In the code of a method a path may load the slot of the receiver or of a parameter at once. It has
stored into each other slot before, with two exceptions: the variable of a declaration that is a
branch is in the scope around the statement, so that it can be loaded where the branch has not been
taken; and a name that the lowering takes for a variable declared later is loaded too early.
-/
namespace Javelet.Lowering

open Assembly Scope

/-- The slot is that of a variable in the scope around a statement which is declared by one of its
branches. -/
def Visit.Spills (g : Visit) (slot : Nat) : Prop :=
  ∃ s, g.place = .statement s ∧ ∃ x, .declaration x ∈ s.branches ∧
    ∃ l, g.env.local? x.name = some l ∧ l.slot = slot

variable {a : Arena} {last r final : Resolved} {ctx : Context} {env : Env} {E : Set Nat}
  {first next : Label} {code : Segment} {slot : Nat}

/-- The slot is that of a variable that the lowering takes a name for, and that the walk has not come
to. -/
def TakenEarly (visits : List Scope.Visit) (v : Scope.Visit) (g : Visit) (slot : Nat) : Prop :=
  ∃ name, v.place.name? = some name ∧ Captured visits v g name ∧
    g.env.entity? name = some (.slot slot)

/-- The slots that may be loaded in a method before they are stored into: that of the receiver and
those of the parameters, of variables that are declared by branches, and of variables that names are
taken for too early. -/
def unstored (m : Method) (w : Tour Scope.Visit) (g : Tour Visit) : Set Nat :=
  {slot | slot < m.firstSlot + m.signature.params.length ∨
    (∃ h ∈ g.visits, h.Spills slot) ∨
    ∃ pair ∈ w.visits.zip g.visits, TakenEarly w.visits pair.1 pair.2 slot}

/-! ## Methods -/

/-- The receiver and the parameters are around the body of a method, and nothing else is. -/
theorem slotsAround_atBody {m : Method} (hw : m.signature.WellNamed)
    (hf : (Resolved.atBody ctx r m).faults = #[])
    (hl : Final last a) (hfilled : Filled (Resolved.atBody ctx r m) last)
    (hv : Visible ctx.Known (Resolved.atBody ctx r m) r.arena.size) :
    slotsAround a (Resolved.atBody ctx r m) r.arena.size ⊆
      {slot | slot < m.firstSlot + m.signature.params.length} := by
  rintro slot ⟨id, name, ty, haround, hfound⟩
  have hparent : ∀ id < (Resolved.atBody ctx r m).arena.size,
      a.parentOf id = (Resolved.atBody ctx r m).arena.parentOf id :=
    fun id hid => (hl.parent id (Nat.lt_of_lt_of_le hid hfilled.size)).trans (hfilled.parent id hid)
  rcases hv.entries id (haround.congr hparent hv.lt) name _ hfound with ⟨_, _, heq, hlt⟩ | ⟨hnone, -⟩
  · cases heq
    rw [(params_atBody hw hf).1] at hlt
    exact hlt
  · cases hnone

theorem exists_mem_zip {α β : Type} {R : α → β → Prop} {xs : List α} {ys : List β}
    (h : List.Forall₂ R xs ys) {x : α} (hx : x ∈ xs) : ∃ y, (x, y) ∈ xs.zip ys ∧ R x y := by
  obtain ⟨i, hi, rfl⟩ := List.getElem_of_mem hx
  have hi' : i < ys.length := h.length_eq ▸ hi
  have hzip : i < (xs.zip ys).length := by
    rw [List.length_zip]
    exact Nat.lt_min.2 ⟨hi, hi'⟩
  have hmem : (xs[i], ys[i]) ∈ xs.zip ys := by
    rw [← List.getElem_zip (h := hzip)]
    exact List.getElem_mem hzip
  exact ⟨ys[i], hmem, List.forall₂_zip h hmem⟩

/-- What is excused in the body of a method. -/
theorem excused_unstored {d : ClassDecl} {m : Method} {start : Resolved}
    (ht : Tracks a start last (Resolved.methodTour ctx d r m) (env.methodTour d m))
    (hpos : 0 < m.firstSlot + m.signature.params.length) :
    Excused a ((Resolved.atBody ctx r m).statementVisits (Resolved.bodyContext ctx r m)
      m.body.statements) (unstored m (Resolved.methodTour ctx d r m) (env.methodTour d m)) := by
  have hpair : ∀ v ∈ (Resolved.atBody ctx r m).statementVisits (Resolved.bodyContext ctx r m)
      m.body.statements, ∃ g, (v, g) ∈
        (Resolved.methodTour ctx d r m).visits.zip (env.methodTour d m).visits ∧ Meets a last v g := by
    intro v hv
    obtain ⟨g, hzip, hm⟩ := exists_mem_zip ht.meets (List.mem_append_left _ hv)
    exact ⟨g, hzip, hm⟩
  refine ⟨.inl hpos, ?_, ?_⟩
  · intro v hv name ty slot hname hfound hle
    obtain ⟨g, hzip, hm⟩ := hpair v hv
    have hcaptured := captured_of_lookup ht.handed ht.final (List.mem_append_left _ hv) hm hfound hle
    refine .inr (.inr ⟨_, hzip, name, hname, hcaptured, ?_⟩)
    rw [Env.entity?, local?_eq, hm.aligned.arena, hm.aligned.scope, hfound]
    rfl
  · rintro v hv s hs b hb slot ⟨x, rfl, hfound⟩
    obtain ⟨g, hzip, hm⟩ := hpair v hv
    refine .inr (.inl ⟨g, (List.of_mem_zip hzip).2, s, hm.place.trans hs, x, hb, ⟨slot, x.type⟩, ?_, rfl⟩)
    rw [local?_eq, hm.aligned.arena, hm.aligned.scope, Arena.lookup_of_lookupLocal hfound]
    rfl

/-- What is known of a method in front of its lowering: behind code that loads the receiver at most,
its code stores into all other slots before it loads them. -/
def Initializes (tours : List (Tour Scope.Visit)) (env : Env) (d : ClassDecl) (m : Method) : Prop :=
  ∃ w ∈ tours, Matches env.arena w (env.methodTour d m) ∧
    ∀ {header before first mc next}, Flow [] 0 before 0 →
      (∀ slot ∈ readings Instruction.slot? before, slot = 0) →
      Yields (methodCode env header before m) first mc next → (labelsOf mc.code).Nodup →
      StoresFirst (unstored m w (env.methodTour d m)) (printed (listing mc.code))

theorem method_initializes {tours : List (Tour Scope.Visit)} {d : ClassDecl} {m : Method}
    (hw : m.WellNamed) (hn : m.nodes.Nodup)
    (hc : Closed r m.nodes) (hb : Bare ctx.Known r ctx.scope)
    (ha : ClassAligned final.arena d ctx env) (henv : env.WellNamed) (htargets : env.targets = [])
    (hpos : 0 < m.firstSlot + m.signature.params.length)
    (hlast : Completed m.nodes (Resolved.method ctx r m) final)
    (hmem : Resolved.methodTour ctx d r m ∈ tours) : Initializes tours env d m := by
  have ht := methodTour_tracks hw hn hc hb ha hlast
  have hjoint := jointList_body hw hn hc hb ha hlast
  refine ⟨_, hmem, ⟨_, _, ha.arena ▸ ht⟩, ?_⟩
  intro header before first mc next hflow hbefore hy hlabels
  obtain ⟨body, hbody, rfl⟩ := yields_methodCode.1 hy
  have hexcused := excused_unstored ht hpos
  have haround : slotsAround final.arena (Resolved.atBody ctx r m) r.arena.size ⊆
      unstored m (Resolved.methodTour ctx d r m) (env.methodTour d m) :=
    (slotsAround_atBody hw.signature ht.handed.faults ht.final
      (@Resolved.walked_body ctx r m hw hn hc).toFilled (visible_atBody hb hw.signature)).trans
      fun _ => .inl
  generalize unstored m (Resolved.methodTour ctx d r m) (env.methodTour d m) = E
    at hexcused haround ⊢
  have hcode := statements_secure (fun s _ => secures ht.final s) hjoint
    ((henv.enter _).enter _) hexcused (yields_block.1 hbody)
  have hexits : ((env.enter m.signature.id).enter m.body.id).exits = [] :=
    exits_of_targets_eq_nil htargets
  rw [hexits] at hcode
  have hstart : Carries [] E E before E [] := by
    refine hflow.carries ?_
    intro slot hslot
    rw [hbefore slot hslot]
    exact hexcused.receiver
  have hall := hstart.append
    (hcode.imp (Set.union_subset (Set.Subset.refl E) haround) (Set.Subset.refl _))
  exact hall.storesFirst_listing hlabels

/-! ## Classes -/

/-- The methods of a class, and the constructor of a class that declares none: the tours of both
passes over a method are the same, place by place, and its code stores into its slots before it
loads them. -/
structure ClassInitializes (tours : List (Tour Scope.Visit)) (env : Env) (d : ClassDecl)
    (c : ClassSection) : Prop where
  methods : ∃ own default_, c.methods = own ++ default_ ∧
    List.Forall₂ (fun m mc => ∃ w ∈ tours, Matches env.arena w (env.methodTour d m) ∧
      StoresFirst (unstored m w (env.methodTour d m)) (printed (listing mc.code))) d.members own ∧
    ∀ mc ∈ default_, StoresFirst {0} (printed (listing mc.code))

theorem class_initializes {d : ClassDecl} {c : ClassSection}
    {tours : List (Tour Scope.Visit)} (hw : d.WellNamed) (henv : (classEnv env d).WellNamed)
    (htargets : env.targets = []) (ha : ClassAllotted (classEnv env d) d)
    (hm : ∀ m ∈ d.members, Initializes tours (classEnv env d) d m)
    (h : Yields (class_ env d) first c next) : ClassInitializes tours (classEnv env d) d c := by
  have hsuper := (class_flow henv htargets hw h).1
  obtain ⟨constructors, methods, default_, middle, middle', hc, hmethods, hdefault, hall, -⟩ :=
    yields_class h
  have hprologue := fun {first before next} => @prologue_flow _ first next before henv
    c.superclass d.properties hsuper hw.properties
  refine ⟨constructors ++ methods, default_, hall, ?_, ?_⟩
  · have hmembers : d.members = d.constructors ++ (d.methods ++ d.main.toList) :=
      List.append_assoc ..
    rw [hmembers] at hm ⊢
    refine List.rel_append (forall₂_mapM ?_ hc) (forall₂_mapM ?_ hmethods)
    · intro m hmem first mc next hy
      obtain ⟨w, hw, hmatch, hcode⟩ := hm m (List.mem_append_left _ hmem)
      obtain ⟨before, middle, hp, hy'⟩ := yields_constructor.1 hy
      exact ⟨w, hw, hmatch, hcode (hprologue hp) (prologue_slots ha hp) hy'
        (constructor_labelled hy).nodup⟩
    · intro m hmem first mc next hy
      obtain ⟨w, hw, hmatch, hcode⟩ := hm m (List.mem_append_right _ hmem)
      exact ⟨w, hw, hmatch, hcode .nil (fun _ hs => absurd hs List.not_mem_nil) hy
        (methodCode_labelled (.of_labelsOf_eq_nil rfl) hy).nodup⟩
  · rcases hdefault with ⟨-, mc, rfl, hy⟩ | ⟨-, rfl, -⟩
    · have hlabels := (defaultConstructor_labelled hy).nodup
      simp only [defaultConstructor, yields_bind, yields_pure] at hy
      obtain ⟨before, _, hp, rfl, rfl⟩ := hy
      have hcode : Carries [] {0} {0} before {0} [] :=
        (hprologue hp).carries (prologue_slots ha hp)
      exact List.forall_mem_singleton.2 (hcode.storesFirst_listing hlabels)
    · exact fun _ hmem => absurd hmem List.not_mem_nil

/-! ## Accepted programs -/

theorem Accepted.initializes {source : String} {program : Program} {analysis : Analysis}
    {sections : List Section} (h : Accepted source program analysis sections) :
    ∀ d, .class_ d ∈ program.declarations → ∀ m ∈ d.members,
      Initializes (Scope.tours program analysis.table)
        (classEnv (.outermost analysis.table analysis.arena) d) d m := by
  obtain ⟨hw, hn⟩ := wellNamed_of_parseSource h.parsed
  obtain ⟨htable, harena, hfaults⟩ := analyze_eq_ok h.analyzed
  have ht : analysis.table.WellNamed := htable ▸ Types.wellNamed_collect hw
  have henv := fun d hd => (@Accepted.wellNamed_classEnv _ _ _ _ h d hd).2
  rw [harena] at henv ⊢
  refine forall_classes hw hn hfaults ?_
  intro d hd r hn hc hb hlast htours
  have hclass : d.WellNamed := hw _ hd
  have hpos := params_pos (receiversFit_of_parseSource h.parsed hd)
  refine forall_members hclass hn hc hb hlast ?_
  intro m hm r' hn' hc' hb' hlast' hmem
  exact method_initializes (hclass.methods m hm) hn' hc' hb' (class_aligned ht hclass hn hc hlast)
    (henv d hd) rfl (hpos m hm) hlast' (htours _ hmem)

/-- In the code of every constructor, method and entry point of a program that is compiled, each
path stores into a slot before it loads it, unless the slot is that of the receiver or of a
parameter, of a variable that is declared by a branch without braces, or of a variable that a name
is taken for too early. -/
theorem compiled_loads_initialized {source text : String} (h : compile source = .ok text) :
    ∃ program analysis sections, Accepted source program analysis sections ∧
      text = programText sections ∧
      List.Forall₂ (fun decl s => ∀ d, decl = .class_ d → ∃ c, s = .class_ c ∧
          ClassInitializes (Scope.tours program analysis.table)
            (classEnv (.outermost analysis.table analysis.arena) d) d c)
        program.declarations sections := by
  obtain ⟨program, analysis, sections, ha, htext⟩ := compile_eq_ok_iff.1 h
  refine ⟨program, analysis, sections, ha, htext, ?_⟩
  obtain ⟨hw, hn⟩ := wellNamed_of_parseSource ha.parsed
  obtain ⟨htable, harena, hfaults⟩ := analyze_eq_ok ha.analyzed
  have ht : analysis.table.WellNamed := htable ▸ Types.wellNamed_collect hw
  obtain ⟨next, hy⟩ := yields_program ha.lowered
  refine forall₂_mapM ?_ hy
  rintro _ hd first s next hs d rfl
  obtain ⟨c, hc, rfl⟩ := yields_typeDecl_class.1 hs
  obtain ⟨hdecl, henv⟩ := ha.wellNamed_classEnv hd
  have hallotted := program_allotted ht hw hn hfaults hd
  rw [← harena] at hallotted
  exact ⟨c, rfl, class_initializes hdecl henv rfl hallotted (ha.initializes d hd) hc⟩

/-- A branch that declares a variable, and a loop with a variable of its own. -/
def assignedLater : String :=
  "class A \x7b int p = 1; int f(int n) \x7b if (n > 1) int y = n; " ++
    "for (int i = 0; i < n; i += 1) \x7b y = i; \x7d return y; \x7d \x7d"

theorem assignedLater_initialized : ∃ program analysis sections,
    Accepted assignedLater program analysis sections ∧
    List.Forall₂ (fun decl s => ∀ d, decl = .class_ d → ∃ c, s = .class_ c ∧
        ClassInitializes (Scope.tours program analysis.table)
          (classEnv (.outermost analysis.table analysis.arena) d) d c)
      program.declarations sections := by
  have hok : (compile assignedLater).isOk = true := by
    rw [compile, parseSource, tokenize_ofList (s := assignedLater) (Source.append_ofList rfl rfl)]
    decide +kernel
  obtain ⟨text, h⟩ := exists_ok_of_isOk hok
  obtain ⟨program, analysis, sections, ha, -, hcode⟩ := compiled_loads_initialized h
  exact ⟨program, analysis, sections, ha, hcode⟩

/-- A declaration that is the branch of a conditional. -/
def bareBranch : String := "class A { void f(boolean b) { if (b) int y = 1; int z = y; } }"

/-- Its code: the slot 2 is loaded behind the label 1, also where the branch is not taken. -/
def bareBranchCode : Segment :=
  [.op (.load .int 1), .op (.jumpNonzero 0), .op (.goto 1), .label 0, .op (.pushInt 1),
    .op (.store .int 2), .op (.goto 1), .label 1, .op (.load .int 2), .op (.store .int 3),
    .op .returnVoid]

/-- The path on which the condition fails loads the slot 2 before anything is stored there. -/
theorem bareBranchCode_not_storesFirst : ¬ StoresFirst {slot | slot < 2} bareBranchCode := by
  intro h
  have hrun : Run bareBranchCode 8 [] :=
    .step (.step (.step (.step .start (.next rfl rfl rfl)) (.next rfl rfl rfl))
      (.jump rfl rfl rfl)) (.label rfl)
  rcases h 8 [] hrun .int 2 rfl with hlt | hmem
  · exact Nat.lt_irrefl 2 hlt
  · cases hmem

/-- The method is accepted, and a path loads a variable that it has not stored into. -/
theorem bareBranch_loads_unstored : ∃ program analysis sections,
    Accepted bareBranch program analysis sections ∧
      ∃ pair ∈ program.declarations.zip sections, ∃ d c, pair = (.class_ d, .class_ c) ∧
        ∃ own ∈ d.members.zip c.methods,
          ¬ StoresFirst {slot | slot < own.1.firstSlot + own.1.signature.params.length}
            (printed (listing own.2.code)) := by
  have hcheck : ((parseSource bareBranch).toOption.any fun program =>
      (analyze program).toOption.any fun (analysis : Analysis) =>
        (Lowering.program analysis.table analysis.arena program).toOption.any
          fun (sections : List Section) =>
            (program.declarations.zip sections).any fun pair => match pair with
              | (.class_ d, .class_ c) => (d.members.zip c.methods).any fun own =>
                decide (own.1.firstSlot + own.1.signature.params.length = 2 ∧
                  printed (listing own.2.code) = bareBranchCode)
              | _ => false) = true := by
    rw [parseSource, tokenize_ofList (s := bareBranch) rfl]
    decide +kernel
  obtain ⟨program, analysis, sections, ha, hcheck⟩ := exists_accepted_of_any hcheck
  obtain ⟨⟨decl, s⟩, hpair, hcheck⟩ := List.any_eq_true.1 hcheck
  split at hcheck
  · rename_i d c heq
    obtain ⟨own, hown, hcode⟩ := List.any_eq_true.1 hcheck
    obtain ⟨hslots, hcode⟩ := of_decide_eq_true hcode
    refine ⟨program, analysis, sections, ha, _, hpair, d, c, heq, own, hown, ?_⟩
    rw [hslots, hcode]
    exact bareBranchCode_not_storesFirst
  · cases hcheck

end Javelet.Lowering
