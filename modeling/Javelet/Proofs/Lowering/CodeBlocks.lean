import Javelet.Proofs.Lowering.OperandStack

/-!
# The code blocks of a compiled program

One counter gives the labels of all methods of a program, so no label is placed twice in its text.
Every jump leads to a label in the code block of its own method. A block ends with an instruction
that leaves the method: a label that still waits at the end of the code gets such an instruction
behind it. So no path runs off the end of a block or into the next one.
-/
namespace Javelet

namespace Assembly

/-- The methods in a section that have code. -/
def Section.methods : Section → List MethodCode
  | class_ c => c.methods
  | interface _ => []

/-- The code block of a method: the items of its lines, as they are printed. -/
def MethodCode.block (mc : MethodCode) : Segment := printed (listing mc.code)

/-- The labels that the code blocks of a program place, from its first line to its last. -/
def programLabels (sections : List Section) : List Label :=
  (sections.flatMap Section.methods).flatMap fun mc => labelsOf mc.block

/-- A code block is closed in a program with the given labels: its jumps lead to labels of its own,
instructions follow its labels, and its last instruction leaves the method. -/
structure ClosedBlock (labels : List Label) (mc : MethodCode) : Prop where
  lines : mc.lines = mc.header.line ::
    (".code stack " ++ (listing mc.code).stack.max.repr ++ " locals " ++ mc.locals.repr) ::
    (listing mc.code).lines.toList.map Line.text ++ [".end code", ".end method"]
  jumps : ∀ i l, .op i ∈ mc.block → i.target? = some l →
    (labelsOf mc.block).count l = 1 ∧ labels.count l = 1
  labelled : ∀ before l after, mc.block = before ++ .label l :: after → ∃ i, .op i ∈ after
  leaves : ∃ before i, mc.block = before ++ [.op i] ∧ i.isReturn = true
  inside : ∀ p q, Follows mc.block p q → q < mc.block.length

theorem labelsOf_flatMap {α : Type} (f : α → Segment) (xs : List α) :
    labelsOf (xs.flatMap f) = xs.flatMap fun x => labelsOf (f x) :=
  List.filterMap_flatMap ..

/-- Printing a method changes none of its labels. -/
theorem labelsOf_block (mc : MethodCode) : labelsOf mc.block = labelsOf mc.code := by
  obtain ⟨tail, htail, hprinted⟩ := printed_listing mc.code
  rw [MethodCode.block, hprinted, labelsOf_written, labelsOf_append]
  rcases htail with rfl | rfl
  · exact List.append_nil _
  · exact List.append_nil _

/-- Behind a label of a block that ends with an instruction there is an instruction. -/
theorem exists_op_behind {before after front : Segment} {l : Label} {i : Instruction}
    (h : before ++ .label l :: after = front ++ [Item.op i]) : .op i ∈ after := by
  rcases List.eq_nil_or_concat after with rfl | ⟨inner, last, rfl⟩
  · cases (List.append_inj' h rfl).2
  · rw [List.concat_eq_append, ← List.cons_append, ← List.append_assoc] at h
    cases (List.append_inj' h rfl).2
    rw [List.concat_eq_append]
    exact List.mem_append_right _ (List.mem_singleton.2 rfl)

end Assembly

namespace Lowering

open Assembly

theorem typeDecl_labelled {env : Env} {first next : Label} {d : TypeDecl} {s : Section}
    (h : Yields (typeDecl env d) first s next) :
    Labelled first next (s.methods.flatMap MethodCode.code) := by
  cases d with
  | class_ decl =>
    obtain ⟨c, hc, rfl⟩ := yields_typeDecl_class.1 h
    exact class_labelled hc
  | interface decl =>
    obtain ⟨rfl, rfl⟩ := yields_pure.1 h
    exact .of_labelsOf_eq_nil rfl

/-- No label is placed twice in a program. -/
theorem nodup_programLabels {table : Types.Table} {arena : Arena} {p : Program}
    {sections : List Section} (h : program table arena p = .ok sections) :
    (programLabels sections).Nodup := by
  obtain ⟨next, hy⟩ := yields_program h
  have hnodup := (mapM_labelled (fun _ _ {_ _ _} hd => typeDecl_labelled hd) hy).nodup
  rw [labelsOf_flatMap] at hnodup
  simpa only [programLabels, List.flatMap_assoc, labelsOf_block, labelsOf_flatMap] using hnodup

theorem count_eq_one {l : Label} {labels : List Label} (hn : labels.Nodup) (hl : l ∈ labels) :
    labels.count l = 1 := by
  have hpos := List.count_pos_iff.2 hl
  have hle := List.nodup_iff_count.1 hn l
  omega

/-- The block of a method whose code keeps the stack in order. -/
theorem closedBlock {sections : List Section} (hn : (programLabels sections).Nodup) {s : Section}
    (hs : s ∈ sections) {mc : MethodCode} (hmc : mc ∈ s.methods) (hflow : Flow [] 0 mc.code 0) :
    ClosedBlock (programLabels sections) mc := by
  have hsub : (labelsOf mc.block).Sublist (programLabels sections) :=
    List.sublist_flatten_of_mem (List.mem_map_of_mem (List.mem_flatMap.2 ⟨s, hs, hmc⟩))
  have hblock : (labelsOf mc.block).Nodup := hn.sublist hsub
  obtain ⟨-, height, m, -, hheights, -⟩ := hflow.listing_heights (labelsOf_block mc ▸ hblock)
  obtain ⟨-, -, -, -, hreturn⟩ := listing_eq_addAll mc.code
  obtain ⟨front, i, hconcat, hi⟩ := printed_eq_concat hreturn
  refine ⟨lines_methodCode mc, ?_, ?_, ⟨front, i, hconcat, hi⟩, hheights.inside⟩
  · intro j l hj hl
    obtain ⟨p, hp⟩ := List.getElem?_of_mem hj
    obtain ⟨q, hq⟩ := hheights.lands p j l hp hl
    have hmem : l ∈ labelsOf mc.block :=
      mem_labelsOf.2 (List.mem_of_getElem? (getElem?_of_position hq))
    exact ⟨count_eq_one hblock hmem, count_eq_one hn (hsub.subset hmem)⟩
  · intro before l after hafter
    exact ⟨i, exists_op_behind (hafter.symm.trans hconcat)⟩

/-- In the text of every accepted program no label is placed twice, and all code blocks are
closed. -/
theorem compiled_blocks_closed {source text : String} (h : compile source = .ok text) :
    ∃ program analysis sections, Accepted source program analysis sections ∧
      text = programText sections ∧ (programLabels sections).Nodup ∧
      ∀ s ∈ sections, ∀ mc ∈ s.methods, ClosedBlock (programLabels sections) mc := by
  obtain ⟨program, analysis, sections, ha, htext⟩ := compile_eq_ok_iff.1 h
  have hn := nodup_programLabels ha.lowered
  refine ⟨program, analysis, sections, ha, htext, hn, ?_⟩
  intro s hs mc hmc
  cases s with
  | class_ c => exact closedBlock hn hs hmc ((ha.class_flow hs).2 mc hmc).1
  | interface i => cases hmc

/-- Two constructors that repeat a comparison; one of them ends where its branches join. -/
def branching : String :=
  "class A { boolean b = 1 < 2; A() { } A(int n) { if (n > 1) { return; } else { n = 2; } } }"

theorem branching_blocks_closed : ∃ text program analysis sections,
    compile branching = .ok text ∧ Accepted branching program analysis sections ∧
      text = programText sections ∧ (programLabels sections).Nodup ∧
      ∀ s ∈ sections, ∀ mc ∈ s.methods, ClosedBlock (programLabels sections) mc := by
  have hok : (compile branching).isOk = true := by
    rw [compile, parseSource, tokenize_ofList (s := branching) rfl]
    decide +kernel
  obtain ⟨text, h⟩ := exists_ok_of_isOk hok
  obtain ⟨program, analysis, sections, hall⟩ := compiled_blocks_closed h
  exact ⟨text, program, analysis, sections, h, hall⟩

end Lowering

end Javelet
