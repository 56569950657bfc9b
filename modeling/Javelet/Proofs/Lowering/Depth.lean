import Javelet.Proofs.Assembly.Depth
import Javelet.Proofs.Lowering.Sites
import Javelet.Proofs.Scope.Chain
import Javelet.Proofs.Types.Names

/-!
# The depth of the stack along lowered code

The code of an expression leaves one value on the stack, whatever the depth before it; the code of
a statement starts and ends with an empty stack. Both need to know that a call finds as many
arguments as the method has parameters, and that no value has the type `void`.
-/
namespace Javelet

namespace Lowering

open Assembly

/-- Surroundings in which every name is plain and every variable has a type of values. -/
structure Env.WellNamed (env : Env) : Prop where
  table : env.table.WellNamed
  arena : env.arena.HoldsValues
  className : ValueName env.className

namespace Env.WellNamed

variable {env : Env} {name : String}

theorem enter (h : env.WellNamed) (id : NodeId) : (env.enter id).WellNamed :=
  ⟨h.table, h.arena, h.className⟩

theorem inside (h : env.WellNamed) (targets : Targets) : (env.inside targets).WellNamed :=
  ⟨h.table, h.arena, h.className⟩

theorem of_local? (h : env.WellNamed) {l : Local} (hl : env.local? name = some l) :
    l.type.IsValue := by
  simp only [Env.local?, Option.bind_eq_bind, Option.bind_eq_some_iff] at hl
  obtain ⟨⟨meaning, slot⟩, hlookup, s, hslot, ty, htype, hl⟩ := hl
  cases hl
  cases hslot
  obtain ⟨id, -, hid⟩ := Arena.exists_around hlookup
  cases meaning with
  | «variable» t =>
    cases htype
    exact h.arena id name _ s hid
  | method _ => cases htype
  | type => cases htype

theorem thisType (h : env.WellNamed) : env.thisType.IsValue := h.className

/-- Loads of a property can be read. -/
theorem legible_getField (h : env.WellNamed) {className : String} {owner : Types.TypeInfo}
    {info : Types.PropertyInfo} (hp : env.table.findProperty className name = some (owner, info)) :
    (Instruction.getField owner.name name info.type).Legible := by
  obtain ⟨howner, hinfo⟩ := h.table.of_findProperty hp
  exact ⟨howner.toPlainName, hinfo.key ▸ hinfo.name, hinfo.type⟩

end Env.WellNamed

end Lowering

namespace Assembly.Flow

variable {exits : List (Label × Nat)} {d d' : Nat}

/-- An instruction that does not jump. -/
theorem plain {i : Instruction} (hp : i.pops ≤ d) (hd : d - i.pops + i.pushes = d')
    (hi : i.Legible) (ht : i.target? = none) : Flow exits d [.op i] d' := by
  subst hd
  refine op hp hi ?_
  intro l hl
  cases ht.symm.trans hl

/-- An instruction that may jump to an exit. -/
theorem jump {i : Instruction} {l : Label} (hp : i.pops ≤ d) (hd : d - i.pops + i.pushes = d')
    (hi : i.Legible) (ht : i.target? = some l) (he : (l, d') ∈ exits) :
    Flow exits d [.op i] d' := by
  subst hd
  refine op hp hi ?_
  intro l' hl
  cases ht.symm.trans hl
  exact he

end Assembly.Flow

namespace Lowering

open Assembly

variable {env : Env} {first next : Label} {p : Position} {code : Segment} {d : Nat}

/-! ## Operators -/

/-- Both ways through a choice leave one value. -/
theorem flow_choice {b : Bool} {other finish : Label} {pre : Segment}
    (h : Flow [(other, d)] d pre d) : Flow [] d (pre ++ choice b other finish) (d + 1) := by
  have hchoice : Flow [(other, d)] d (choice b other finish) (d + 1) := by
    refine ⟨?_, rfl, ?_, ?_⟩
    · simp [choice, Assembly.Balanced, Instruction.after, Instruction.pops, Instruction.pushes,
        Instruction.isGoto, Instruction.pushBoolean]
    · simp [choice, jumps, placed, Instruction.after, Instruction.pops, Instruction.pushes,
        Instruction.target?, Instruction.pushBoolean]
    · simp [choice, Instruction.pushBoolean, Instruction.Legible]
  refine (h.append hchoice).close ?_
  intro j hj
  cases List.mem_singleton.1 hj
  rw [placed_append, h.ends, List.mem_append]
  exact .inl (.inr <| by simp [choice, placed, Instruction.after, Instruction.pops, Instruction.pushes,
    Instruction.pushBoolean])

/-- The jump of a comparison takes both operands. -/
theorem comparisonJump_spec {op : BinaryOp} {left right : Ty} {target : Label} {i : Instruction}
    (h : comparisonJump? op left right target = some i) :
    i.pops = 2 ∧ i.pushes = 0 ∧ i.Legible ∧ i.target? = some target := by
  unfold comparisonJump? at h
  split at h
  · cases h
    exact ⟨rfl, rfl, trivial, rfl⟩
  · split at h
    · split at h
      · cases h
        exact ⟨rfl, rfl, trivial, rfl⟩
      · cases h
        exact ⟨rfl, rfl, trivial, rfl⟩
      · cases h
    · cases h

theorem flow_shortcut (op : Connective) (l : Label) :
    Flow [(l, d)] (d + 1) [.op (shortcut op l)] d := by
  cases op with
  | and => exact .jump (Nat.le_add_left 1 d) rfl trivial rfl (List.mem_singleton.2 rfl)
  | or => exact .jump (Nat.le_add_left 1 d) rfl trivial rfl (List.mem_singleton.2 rfl)

/-! ## Expressions -/

/-- What is shown of every expression: its value has a type of values and takes one cell. -/
def LeavesValue (env : Env) (e : Expr) : Prop :=
  ∀ {first next v}, Yields (expr env e) first v next →
    v.type.IsValue ∧ ∀ d, Flow [] d v.code (d + 1)

theorem arguments_flow {args : List Expr} {as : Arguments}
    (ih : ∀ e ∈ args, LeavesValue env e) (h : Yields (arguments env args) first as next) :
    (∀ t ∈ as.types, t.IsValue) ∧ as.types.length = args.length ∧
      ∀ d, Flow [] d as.code (d + args.length) := by
  induction args generalizing first as with
  | nil =>
    simp only [arguments, yields_pure] at h
    obtain ⟨rfl, rfl⟩ := h
    exact ⟨List.forall_mem_nil _, rfl, fun d => .nil⟩
  | cons e rest ihrest =>
    obtain ⟨v, vs, middle, hv, hvs, rfl⟩ := yields_arguments_cons.1 h
    obtain ⟨htype, hflow⟩ := ih e (List.mem_cons_self ..) hv
    obtain ⟨htypes, hlength, hflows⟩ := ihrest (fun e he => ih e (List.mem_cons_of_mem _ he)) hvs
    refine ⟨List.forall_mem_cons.2 ⟨htype, htypes⟩, by rw [List.length_cons, hlength]; rfl, ?_⟩
    intro d
    have hall := (hflow d).append (hflows (d + 1))
    rwa [Nat.add_right_comm, Nat.add_assoc] at hall

/-- The cells that a receiver takes on the stack. -/
def Receiver.cells : Receiver → Nat
  | .system => 0
  | .printStream => 1
  | .value ty => if ty.isVoid then 0 else 1

/-- The type of a receiver is the type of a result. -/
def Receiver.IsResult : Receiver → Prop
  | .value ty => ty.IsResult
  | _ => True

theorem Receiver.cells_value {ty : Ty} (h : ty.IsValue) : (Receiver.value ty).cells = 1 := by
  simp [Receiver.cells, h.isVoid]

/-- What a step of a chain may reach. -/
def Reached.Fits (r : Reached) (d d' : Nat) : Prop :=
  r.receiver.IsResult ∧ Flow [] d r.code (d' + r.receiver.cells)

theorem call_flow (henv : env.WellNamed) {receiver : Ty} {name : String} {args : Arguments}
    {r : Reached} (ht : ∀ t ∈ args.types, t.IsValue)
    (hflow : ∀ d, Flow [] d args.code (d + args.types.length))
    (h : Yields (call env receiver name p args) first r next) : r.Fits (d + 1) d := by
  obtain ⟨owner, m, hm, -, -, rfl, rfl⟩ := yields_call.1 h
  obtain ⟨howner, hinfo, rfl, hlength⟩ := henv.table.of_resolveMethod ht hm
  have hlegible : (invocation owner m.name m).Legible := by
    unfold invocation
    split
    · exact ⟨howner.toPlainName, hinfo.name, hinfo.params, hinfo.returns⟩
    · exact ⟨howner.toPlainName, hinfo.name, hinfo.params, hinfo.returns⟩
  have hpops : (invocation owner m.name m).pops = args.types.length + 1 := by
    rw [← hlength]
    unfold invocation
    split <;> rfl
  have hpushes : (invocation owner m.name m).pushes = (Receiver.value m.returns).cells := by
    unfold invocation
    split <;> rfl
  have htarget : (invocation owner m.name m).target? = none := by
    unfold invocation
    split <;> rfl
  refine ⟨hinfo.returns, (hflow (d + 1)).append (.plain ?_ ?_ hlegible htarget)⟩
  · omega
  · rw [hpops, hpushes]
    dsimp only
    omega

theorem head_flow (henv : env.WellNamed) {h : Head} {r : Reached}
    (ih : ∀ e ∈ h.operands, LeavesValue env e) (hy : Yields (head env h) first r next) :
    r.Fits d d := by
  have hthis : Flow [] d [.op .loadThis] (d + 1) := .plain (Nat.zero_le d) rfl trivial rfl
  cases h with
  | this p =>
    simp only [head, yields_pure] at hy
    obtain ⟨rfl, rfl⟩ := hy
    refine ⟨.inr henv.thisType, ?_⟩
    rw [Receiver.cells_value henv.thisType]
    exact hthis
  | name p name =>
    simp only [head] at hy
    obtain ⟨rfl, ⟨l, hl, rfl⟩ | ⟨owner, info, hp, rfl⟩ | rfl⟩ := yields_nameHead hy
    · have hty := henv.of_local? hl
      refine ⟨.inr hty, ?_⟩
      rw [Receiver.cells_value hty]
      exact .plain (Nat.zero_le d) rfl trivial rfl
    · have hlegible := henv.legible_getField hp
      refine ⟨.inr hlegible.2.2, ?_⟩
      rw [Receiver.cells_value hlegible.2.2]
      exact hthis.append (.plain (Nat.le_add_left 1 d) rfl hlegible rfl)
    · exact ⟨trivial, .nil⟩
  | call p name args =>
    obtain ⟨as, result, middle, ha, hc, rfl⟩ := yields_head_call.1 hy
    obtain ⟨htypes, hlength, hflow⟩ := arguments_flow ih ha
    obtain ⟨hresult, hcall⟩ := call_flow henv htypes (hlength ▸ hflow) hc
    exact ⟨hresult, hthis.append hcall⟩

theorem isVoid_of_isReference {ty : Ty} (h : ty.isReference = true) : ty.isVoid = false := by
  simp only [Ty.isReference, Bool.and_eq_true, Bool.not_eq_true'] at h
  exact h.2

theorem isVoid_of_isArray {ty : Ty} (h : ty.isArray = true) : ty.isVoid = false := by
  simp [Ty.isVoid, h]

/-- A print method takes at most one argument. -/
theorem length_le_of_printMethod? {name : String} {count : Nat} {line : Bool}
    (h : printMethod? name count = some line) : count ≤ 1 := by
  unfold printMethod? at h
  split at h
  · rename_i hline
    exact hline.2
  split at h
  · rename_i hpart
    exact Nat.le_of_eq hpart.2
  · cases h

theorem link_flow (henv : env.WellNamed) {receiver : Receiver} {l : Link} {r : Reached}
    (ih : ∀ e ∈ l.operands, LeavesValue env e) (hr : receiver.IsResult)
    (hy : Yields (link env receiver l) first r next) : r.Fits (d + receiver.cells) d := by
  cases l with
  | field p name =>
    simp only [link] at hy
    obtain ⟨rfl, ⟨rfl, rfl⟩ | ⟨ty, rfl, harray, rfl⟩ | ⟨ty, owner, info, rfl, href, hp, rfl⟩⟩ :=
      yields_fieldStep hy
    · exact ⟨trivial, .plain (Nat.zero_le d) rfl trivial rfl⟩
    · have hty := Ty.IsResult.isValue hr (isVoid_of_isArray harray)
      refine ⟨.inr Ty.isValue_int, ?_⟩
      rw [Receiver.cells_value hty, Receiver.cells_value Ty.isValue_int]
      exact .plain (Nat.le_add_left 1 d) rfl trivial rfl
    · have hty := Ty.IsResult.isValue hr (isVoid_of_isReference href)
      have hlegible := henv.legible_getField hp
      refine ⟨.inr hlegible.2.2, ?_⟩
      rw [Receiver.cells_value hty, Receiver.cells_value hlegible.2.2]
      exact .plain (Nat.le_add_left 1 d) rfl hlegible rfl
  | call p name args =>
    rcases yields_link_call hy with ⟨line, as, rfl, hprint, ha, rfl⟩ |
      ⟨ty, as, middle, rfl, href, ha, hc⟩
    · obtain ⟨htypes, hlength, hflow⟩ := arguments_flow ih ha
      rw [Link.operands] at hlength hflow
      refine ⟨.inl rfl, (hflow (d + 1)).append ?_⟩
      have hcount := length_le_of_printMethod? hprint
      have hcells : (Instruction.print line as.types.head?).pops = args.length + 1 := by
        rw [← hlength] at hcount ⊢
        generalize as.types = types at hcount ⊢
        cases types with
        | nil => rfl
        | cons t rest =>
          rw [List.length_eq_zero_iff.1 (Nat.le_zero.1 (Nat.le_of_succ_le_succ hcount))]
          rfl
      refine .plain ?_ ?_ trivial rfl
      · omega
      · rw [hcells]
        exact Nat.sub_eq_of_eq_add (Nat.add_right_comm d 1 args.length)
    · obtain ⟨htypes, hlength, hflow⟩ := arguments_flow ih ha
      rw [Receiver.cells_value (Ty.IsResult.isValue hr (isVoid_of_isReference href))]
      exact call_flow henv htypes (hlength ▸ hflow) hc
  | index p i =>
    obtain ⟨ty, v, rfl, harray, hv, -, rfl⟩ := yields_link_index hy
    have hty := Ty.IsResult.isValue hr (isVoid_of_isArray harray)
    have helement : ty.element.IsValue := hty
    refine ⟨.inr helement, ?_⟩
    rw [Receiver.cells_value hty, Receiver.cells_value helement]
    have hindex := (ih i (List.mem_singleton.2 rfl) hv).2 (d + 1)
    exact hindex.append (.plain (Nat.le_add_left 2 d) rfl trivial rfl)

theorem links_flow (henv : env.WellNamed) {start r : Reached} {ls : List Link}
    (ih : ∀ l ∈ ls, ∀ e ∈ l.operands, LeavesValue env e) (hs : start.Fits d d)
    (hy : Yields (links env start ls) first r next) : r.Fits d d := by
  induction ls generalizing start first with
  | nil =>
    simp only [links, yields_pure] at hy
    obtain ⟨rfl, rfl⟩ := hy
    exact hs
  | cons l rest ihrest =>
    obtain ⟨step, middle, hstep, hrest⟩ := yields_links_cons.1 hy
    obtain ⟨hresult, hflow⟩ := link_flow henv (ih l (List.mem_cons_self ..)) hs.1 hstep
    refine ihrest (fun l hl => ih l (List.mem_cons_of_mem _ hl)) ?_ hrest
    exact ⟨hresult, hs.2.append hflow⟩

theorem chain_flow (henv : env.WellNamed) {h : Head} {ls : List Link} {v : Typed}
    (ihh : ∀ e ∈ h.operands, LeavesValue env e)
    (ihl : ∀ l ∈ ls, ∀ e ∈ l.operands, LeavesValue env e)
    (hy : Yields (chain env (.mk h ls)) first v next) :
    v.type.IsResult ∧ Flow [] d v.code (d + (Receiver.value v.type).cells) := by
  obtain ⟨start, r, middle, hs, hr, htype, hcode⟩ := yields_chain.1 hy
  obtain ⟨hresult, hflow⟩ := links_flow henv ihl (head_flow henv ihh hs) hr
  rw [htype] at hresult hflow
  rw [hcode]
  exact ⟨hresult, hflow⟩

theorem literal_flow (value : Literal) :
    (literal value).type.IsValue ∧ ∀ d, Flow [] d (literal value).code (d + 1) := by
  cases value with
  | int value => exact ⟨Ty.isValue_int, fun d => .plain (Nat.zero_le d) rfl trivial rfl⟩
  | char value => exact ⟨Ty.isValue_char, fun d => .plain (Nat.zero_le d) rfl trivial rfl⟩
  | boolean value => exact ⟨Ty.isValue_boolean, fun d => .plain (Nat.zero_le d) rfl trivial rfl⟩
  | string value => exact ⟨Ty.isValue_string, fun d => .plain (Nat.zero_le d) rfl trivial rfl⟩
  | null => exact ⟨Ty.isValue_null, fun d => .plain (Nat.zero_le d) rfl trivial rfl⟩

theorem construct_flow (henv : env.WellNamed) {className : String} {args : Arguments} {v : Typed}
    (ht : ∀ t ∈ args.types, t.IsValue) (hflow : ∀ d, Flow [] d args.code (d + args.types.length))
    (h : Yields (construct env className p args) first v next) :
    v.type.IsValue ∧ ∀ d, Flow [] d v.code (d + 1) := by
  obtain ⟨m, hm, -, rfl, rfl⟩ := yields_construct.1 h
  obtain ⟨hname, hinfo, hlength⟩ := henv.table.of_resolveConstructor ht hm
  refine ⟨hname, fun d => ?_⟩
  have hnew : Flow [] d (ops [.new className, .dup]) (d + 2) := by
    have hfirst : Flow [] d [.op (.new className)] (d + 1) :=
      .plain (Nat.zero_le d) rfl hname.toPlainName rfl
    exact hfirst.append (.plain (Nat.le_add_left 1 d) rfl trivial rfl)
  have hpops : (Instruction.invokeConstructor className m.params).pops = args.types.length + 1 := by
    rw [← hlength]
    rfl
  refine (hnew.append (hflow (d + 2))).append (.plain ?_ ?_ ⟨hname.toPlainName, hinfo.params⟩ rfl)
  · omega
  · rw [hpops]
    exact Nat.sub_eq_of_eq_add (by omega)

/-- The code of an expression leaves one value, which has a type of values. -/
theorem expr_flow (henv : env.WellNamed) {e : Expr} (he : e.WellNamed) : LeavesValue env e := by
  induction he with
  | literal =>
    intro first next v h
    simp only [expr, yields_pure] at h
    obtain ⟨rfl, rfl⟩ := h
    exact literal_flow _
  | @binary op left right _ _ ihl ihr =>
    intro first next v h
    cases op with
    | arithmetic op =>
      obtain ⟨l, r, middle, hl, hr, -, -, rfl⟩ := yields_expr_arithmetic.1 h
      refine ⟨Ty.isValue_int, fun d => ?_⟩
      exact (((ihl hl).2 d).append ((ihr hr).2 (d + 1))).append
        (.plain (Nat.le_add_left 2 d) rfl trivial rfl)
    | relation op =>
      obtain ⟨l, r, middle, yes, jump, hl, hr, hjump, rfl, rfl⟩ := yields_expr_relation.1 h
      obtain ⟨hpops, hpushes, hlegible, htarget⟩ := comparisonJump_spec hjump
      refine ⟨Ty.isValue_boolean, fun d => ?_⟩
      have htest : Flow [(yes, d)] (d + 2) [.op jump] d :=
        .jump (by omega) (by rw [hpops, hpushes]; rfl) hlegible htarget (List.mem_singleton.2 rfl)
      have hboth := (((ihl hl).2 d).append ((ihr hr).2 (d + 1))).closed.append htest
      simpa using flow_choice hboth
    | connective op =>
      obtain ⟨l, r, middle, hl, -, hr, -, rfl⟩ := yields_expr_connective.1 h
      refine ⟨Ty.isValue_boolean, fun d => ?_⟩
      have hleft := (((ihl hl).2 d).closed).append (flow_shortcut op first)
      have hright := (((ihr hr).2 d).closed).append (flow_shortcut op first)
      simpa using flow_choice (hleft.append hright)
  | @access h ls _ _ ihh ihl =>
    intro first next v hy
    obtain ⟨hchain, hvoid⟩ := yields_expr_access.1 hy
    refine ⟨(chain_flow (d := 0) henv ihh ihl hchain).1.isValue hvoid, fun d => ?_⟩
    have hflow := (chain_flow (d := d) henv ihh ihl hchain).2
    simpa [Receiver.cells, hvoid] using hflow
  | newObject _ ih =>
    intro first next v h
    obtain ⟨as, middle, ha, hc⟩ := yields_expr_newObject.1 h
    obtain ⟨htypes, hlength, hflow⟩ := arguments_flow ih ha
    exact construct_flow henv htypes (hlength ▸ hflow) hc
  | newArray helement _ ih =>
    intro first next v h
    obtain ⟨n, middle, hn, hc⟩ := yields_expr_newArray.1 h
    obtain ⟨-, rfl, rfl⟩ := yields_constructArray.1 hc
    refine ⟨helement, fun d => ?_⟩
    have hlegible := plainName_internalName helement.toPlainName
    exact ((ih hn).2 d).append (.plain (Nat.le_add_left 1 d) rfl hlegible rfl)

/-! ## Simple statements -/

/-- An assignment behind its place: with `n` cells of the place on the stack, the old value can be
loaded over them and the new one is stored with them. -/
theorem assigning_flow {n : Nat} {op : AssignOp} {old : List Instruction} {value : Segment}
    {store : Instruction} (hold : Flow [] n (ops old) (n + 1))
    (hvalue : ∀ d, Flow [] d value (d + 1)) (hstore : Flow [] (n + 1) [.op store] 0) :
    Flow [] n (assigning op old value store) 0 := by
  cases op with
  | plain =>
    have hall := (hvalue n).append hstore
    simpa [assigning, oldValue, combination, ops] using hall
  | compound op =>
    have hcombine : Flow [] (n + 2) [.op (.arithmetic op)] (n + 1) :=
      .plain (Nat.le_add_left 2 n) rfl trivial rfl
    have hall := ((hold.append (hvalue (n + 1))).append hcombine).append hstore
    simpa [assigning, oldValue, combination, ops] using hall

theorem assigning_local_flow {op : AssignOp} {l : Local} {value : Segment}
    (hvalue : ∀ d, Flow [] d value (d + 1)) : Flow [] 0 (assigning op [l.load] value l.store) 0 :=
  assigning_flow (.plain (Nat.le_refl 0) rfl trivial rfl) hvalue
    (.plain (Nat.le_refl 1) rfl trivial rfl)

theorem assigning_field_flow {op : AssignOp} {owner name : String} {ty : Ty} {value : Segment}
    (hlegible : (Instruction.getField owner name ty).Legible)
    (hvalue : ∀ d, Flow [] d value (d + 1)) :
    Flow [] 1 (assigning op [.dup, .getField owner name ty] value (.putField owner name ty)) 0 := by
  have hdup : Flow [] 1 [.op .dup] 2 := .plain (Nat.le_refl 1) rfl trivial rfl
  exact assigning_flow (hdup.append (.plain (Nat.le_succ 1) rfl hlegible rfl)) hvalue
    (.plain (Nat.le_refl 2) rfl hlegible rfl)

theorem assigning_element_flow {op : AssignOp} {element : Element} {value : Segment}
    (hvalue : ∀ d, Flow [] d value (d + 1)) :
    Flow [] 2 (assigning op [.dup2, .arrayLoad element] value (.arrayStore element)) 0 := by
  have hdup : Flow [] 2 [.op .dup2] 4 := .plain (Nat.le_refl 2) rfl trivial rfl
  exact assigning_flow (hdup.append (.plain (Nat.le_add_left 2 2) rfl trivial rfl)) hvalue
    (.plain (Nat.le_refl 3) rfl trivial rfl)

theorem assignName_flow (henv : env.WellNamed) {name : String} {op : AssignOp} {value : Expr}
    (hv : value.WellNamed) (h : Yields (assignName env name p op value) first code next) :
    Flow [] 0 code 0 := by
  obtain ⟨v, hy, ⟨l, -, rfl⟩ | ⟨owner, info, -, hp, rfl⟩⟩ := yields_assignName h
  · exact assigning_local_flow (expr_flow henv hv hy).2
  · have hthis : Flow [] 0 [.op .loadThis] 1 := .plain (Nat.le_refl 0) rfl trivial rfl
    exact hthis.append (assigning_field_flow (henv.legible_getField hp) (expr_flow henv hv hy).2)

theorem assignLink_flow (henv : env.WellNamed) {receiver : Receiver} {last : Link} {op : AssignOp}
    {value : Expr} (hr : receiver.IsResult) (hlast : ∀ e ∈ last.operands, e.WellNamed)
    (hv : value.WellNamed) (h : Yields (assignLink env receiver p last op value) first code next) :
    Flow [] receiver.cells code 0 := by
  rcases yields_assignLink h with ⟨_, name, object, owner, info, v, -, rfl, href, hp, hy, rfl⟩ |
    ⟨_, i, array, place, v, middle, rfl, rfl, harray, hplace, hy, rfl⟩
  · rw [Receiver.cells_value (Ty.IsResult.isValue hr (isVoid_of_isReference href))]
    exact assigning_field_flow (henv.legible_getField hp) (expr_flow henv hv hy).2
  · rw [Receiver.cells_value (Ty.IsResult.isValue hr (isVoid_of_isArray harray))]
    have hindex := expr_flow henv (hlast i (List.mem_singleton.2 rfl)) hplace
    exact (hindex.2 1).append (assigning_element_flow (expr_flow henv hv hy).2)

theorem operands_wellNamed {h : Head} {ls : List Link} (hc : (Chain.mk h ls).WellNamed) :
    (∀ e ∈ h.operands, e.WellNamed) ∧ ∀ l ∈ ls, ∀ e ∈ l.operands, e.WellNamed := by
  cases hc with
  | access hh hl => exact ⟨hh, hl⟩

theorem assignment_flow (henv : env.WellNamed) {a : Assignment} (ha : a.WellNamed)
    (h : Yields (assignment env a) first code next) : Flow [] 0 code 0 := by
  rcases yields_assignment h with ⟨_, _, -, h⟩ |
    ⟨head, ls, last, start, reached, middle, middle', tail, htarget, hhead, hlinks, hlast, rfl⟩
  · exact assignName_flow henv ha.value h
  · have hparts := ha.target
    rw [htarget] at hparts
    obtain ⟨hoperands, hls⟩ := operands_wellNamed hparts
    have hstart := @head_flow env first middle 0 henv head start
      (fun e he => expr_flow henv (hoperands e he)) hhead
    have hsteps : ∀ l ∈ ls, ∀ e ∈ l.operands, LeavesValue env e := by
      intro l hl e he
      exact expr_flow henv (hls l (List.mem_append_left _ hl) e he)
    obtain ⟨hresult, hflow⟩ := links_flow henv hsteps hstart hlinks
    rw [Nat.zero_add] at hflow
    have hlastNamed := hls last (List.mem_append_right _ (List.mem_singleton.2 rfl))
    exact hflow.append (assignLink_flow henv hresult hlastNamed ha.value hlast)

theorem flow_pushDefault (ty : Ty) {d : Nat} : Flow [] d (ops [.pushDefault ty]) (d + 1) := by
  unfold Instruction.pushDefault
  split
  · exact .plain (Nat.zero_le d) rfl trivial rfl
  · exact .plain (Nat.zero_le d) rfl trivial rfl

theorem variable_flow (henv : env.WellNamed) {v : Variable} (hv : v.WellNamed)
    (h : Yields (variable_ env v) first code next) : Flow [] 0 code 0 := by
  have hstore : ∀ l : Local, Flow [] 1 [.op l.store] 0 :=
    fun l => .plain (Nat.le_refl 1) rfl trivial rfl
  obtain ⟨l, -, ⟨-, rfl, rfl⟩ | ⟨e, value, he, hy, rfl⟩⟩ := yields_variable.1 h
  · exact (flow_pushDefault l.type).append (hstore l)
  · exact ((expr_flow henv (hv.value e he) hy).2 0).append (hstore l)

theorem action_flow (henv : env.WellNamed) {a : Action} (ha : a.WellNamed)
    (h : Yields (action env a) first code next) : Flow [] 0 code 0 := by
  cases a with
  | assignment a => exact assignment_flow henv ha h
  | call c =>
    obtain ⟨v, hv, rfl⟩ := yields_action_call.1 h
    obtain ⟨hd, ls⟩ := c
    obtain ⟨hoperands, hls⟩ := operands_wellNamed ha
    obtain ⟨hresult, hflow⟩ := @chain_flow env first next 0 henv hd ls v
      (fun e he => expr_flow henv (hoperands e he))
      (fun l hl e he => expr_flow henv (hls l hl e he)) hv
    simp only [Receiver.cells] at hflow
    split
    · rename_i hvoid
      simpa [hvoid] using hflow
    · rename_i hvoid
      simp only [if_neg hvoid, Nat.zero_add] at hflow
      exact hflow.append (.plain (Nat.le_refl 1) rfl trivial rfl)

/-- The targets of the jumps out of a node; all of them find an empty stack. -/
def Env.exits (env : Env) : List (Label × Nat) :=
  env.targets.flatMap fun t => (t.break_ :: t.continue_.toList).map (·, 0)

theorem Env.breakTarget_mem_exits {l : Label} (h : env.breakTarget? = some l) :
    (l, 0) ∈ env.exits := by
  simp only [Env.breakTarget?, Option.map_eq_some_iff] at h
  obtain ⟨t, ht, rfl⟩ := h
  exact List.mem_flatMap.2 ⟨t, List.mem_of_head? ht, List.mem_cons_self ..⟩

theorem Env.continueTarget_mem_exits {l : Label} (h : env.continueTarget? = some l) :
    (l, 0) ∈ env.exits := by
  obtain ⟨t, ht, hl⟩ := List.exists_of_findSome?_eq_some h
  refine List.mem_flatMap.2 ⟨t, ht, ?_⟩
  rw [hl]
  exact List.mem_cons_of_mem _ (List.mem_singleton.2 rfl)

theorem jump_flow (henv : env.WellNamed) {j : Jump} (hj : j.WellNamed)
    (h : Yields (jump env p j) first code next) : Flow env.exits 0 code 0 := by
  cases j with
  | return_ value =>
    cases value with
    | none =>
      simp only [jump, yields_pure] at h
      obtain ⟨rfl, rfl⟩ := h
      exact .plain (Nat.le_refl 0) rfl trivial rfl
    | some e =>
      obtain ⟨v, hv, rfl⟩ := yields_jump_value.1 h
      refine ((expr_flow henv (hj e rfl) hv).2 0).closed.append ?_
      split
      · exact .plain (Nat.le_refl 1) rfl trivial rfl
      · exact .plain (Nat.le_refl 1) rfl trivial rfl
  | break_ =>
    obtain ⟨target, ht, rfl, rfl⟩ := yields_jump_break.1 h
    exact .jump (Nat.le_refl 0) rfl trivial rfl (Env.breakTarget_mem_exits ht)
  | continue_ =>
    obtain ⟨target, ht, rfl, rfl⟩ := yields_jump_continue.1 h
    exact .jump (Nat.le_refl 0) rfl trivial rfl (Env.continueTarget_mem_exits ht)

theorem flow_goto {exits : List (Label × Nat)} {l : Label} (h : (l, 0) ∈ exits) :
    Flow exits 0 [.op (.goto l)] 0 :=
  .jump (Nat.le_refl 0) rfl trivial rfl h

theorem test_flow (henv : env.WellNamed) {e : Expr} (he : e.WellNamed) {yes no : Label}
    (h : Yields (test env e yes no) first code next) : Flow [(yes, 0), (no, 0)] 0 code 0 := by
  obtain ⟨v, hv, -, rfl⟩ := yields_test.1 h
  have hjump : Flow [(yes, 0), (no, 0)] 1 [.op (.jumpNonzero yes)] 0 :=
    .jump (Nat.le_refl 1) rfl trivial rfl (List.mem_cons_self ..)
  refine ((expr_flow henv he hv).2 0).closed.append (hjump.append (flow_goto ?_))
  exact List.mem_cons_of_mem _ (List.mem_singleton.2 rfl)

theorem selector_flow (henv : env.WellNamed) {e : Expr} (he : e.WellNamed) {l : Local}
    (h : Yields (selector env e l) first code next) : Flow [] 0 code 0 := by
  obtain ⟨v, hv, -, rfl⟩ := yields_selector.1 h
  exact ((expr_flow henv he hv).2 0).append (.plain (Nat.le_refl 1) rfl trivial rfl)

/-- The tests of a switch jump to the labels of its cases. -/
theorem caseTests_flow {l : Local} {label : Label} {cases : List Case}
    {exits : List (Label × Nat)} (hexits : ∀ i < cases.length, (label + i, 0) ∈ exits)
    (h : Yields (caseTests l label cases) first code next) : Flow exits 0 code 0 := by
  induction cases generalizing label code with
  | nil =>
    obtain ⟨-, rfl⟩ := yields_caseTests_nil.1 h
    exact .nil
  | cons c cases ih =>
    obtain ⟨value, rest, -, hrest, rfl⟩ := yields_caseTests_cons.1 h
    have hload : Flow exits 0 [.op l.load] 1 := .plain (Nat.le_refl 0) rfl trivial rfl
    have hpush : Flow exits 1 [.op (.pushInt value)] 2 := .plain (Nat.zero_le 1) rfl trivial rfl
    have hjump : Flow exits 2 [.op (.jumpInts .equal label)] 0 :=
      .jump (Nat.le_refl 2) rfl trivial rfl (hexits 0 (Nat.succ_pos _))
    refine (hload.append (hpush.append hjump)).append (ih ?_ hrest)
    intro i hi
    have hmem := hexits (i + 1) (Nat.succ_lt_succ hi)
    rwa [Nat.add_comm i 1, ← Nat.add_assoc] at hmem

theorem forInit_flow (henv : env.WellNamed) {init : Option ForInit}
    (hi : ∀ i ∈ init, i.WellNamed) (h : Yields (forInit env init) first code next) :
    Flow [] 0 code 0 := by
  match init, hi, h with
  | some (.declaration v), hi, h => exact variable_flow henv (hi _ rfl) h
  | some (.assignment a), hi, h => exact assignment_flow henv (hi _ rfl) h
  | none, _, h =>
    obtain ⟨rfl, rfl⟩ := yields_pure.1 h
    exact .nil

theorem forTest_flow (henv : env.WellNamed) {e : Option Expr} (he : ∀ e' ∈ e, e'.WellNamed)
    {yes no : Label} (h : Yields (forTest env e yes no) first code next) :
    Flow [(yes, 0), (no, 0)] 0 code 0 := by
  cases e with
  | none =>
    obtain ⟨rfl, rfl⟩ := yields_pure.1 h
    exact .nil
  | some e => exact test_flow henv (he e rfl) h

theorem forUpdate_flow (henv : env.WellNamed) {update : Option Action}
    (hu : ∀ a ∈ update, a.WellNamed) (h : Yields (forUpdate env update) first code next) :
    Flow [] 0 code 0 := by
  cases update with
  | none =>
    obtain ⟨rfl, rfl⟩ := yields_pure.1 h
    exact .nil
  | some a => exact action_flow henv (hu a rfl) h

end Lowering

end Javelet
