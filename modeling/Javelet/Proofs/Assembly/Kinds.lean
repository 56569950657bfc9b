import Javelet.Proofs.Assembly.Heights

/-!
# The kinds of cells along code

A machine whose cells hold either an integer or a reference runs through a program. An instruction
wants cells of certain kinds on top of the stack and puts others in their place; for members the kinds
are read off the descriptors. A slot and a field keep values of one kind. A machine that does not find
what an instruction wants is stuck there.

Code is gone through once, from its start to its end, with the kinds of the cells that the code itself
has put. Behind a jump that is always taken nothing is known, and at a label it is what the jumps to
it bring along, all of which stand in front of the label. Where this succeeds no run is stuck, none
touches the cells that it has found, and all runs come to the end with the same cells.
-/
namespace Javelet.Assembly

/-- The kind of a value, by the descriptor of its type. Longs and floating point numbers are of
neither kind. -/
def Cell.ofDescriptor? (descriptor : String) : Option Cell :=
  descriptor.toList.head?.bind fun c =>
    if c ∈ ['B', 'C', 'I', 'S', 'Z'] then some .int
    else if c = 'L' ∨ c = '[' then some .reference
    else none

/-- The kinds of the cells of a result, by its descriptor. -/
def resultKinds? (descriptor : String) : Option (List Cell) :=
  if descriptor = "V" then some [] else (Cell.ofDescriptor? descriptor).map fun cell => [cell]

/-- The kind of the elements of an array. -/
def Element.cell : Element → Cell
  | reference => .reference
  | _ => .int

/-- The kinds of the values in the slots and in the fields. -/
structure Storage where
  slot : Nat → Cell
  field : String → String → Cell

/-- The kinds of the cells of arguments, top first. The last argument is on top. -/
def argumentKinds? : List Ty → Option (List Cell)
  | [] => some []
  | param :: params => do
    let cell ← Cell.ofDescriptor? (descriptor param)
    let above ← argumentKinds? params
    return above ++ [cell]

/-- The kinds of the cells that a call takes, top first, and of its result. The receiver is below the
arguments. -/
def callKinds? (params : List Ty) (returns : Ty) : Option (List Cell × List Cell) := do
  let arguments ← argumentKinds? params
  let result ← resultKinds? (descriptor returns)
  return (arguments ++ [.reference], result)

/-- The kinds of the cells that an instruction takes, top first, and of those that it puts, if they
depend on nothing but the instruction and the storage. -/
def Instruction.kinds? (m : Storage) : Instruction → Option (List Cell × List Cell)
  | pushInt _ => some ([], [.int])
  | pushString _ | pushNull | new _ | getPrintStream => some ([], [.reference])
  | load cell slot => if m.slot slot = cell then some ([], [cell]) else none
  | store cell slot => if m.slot slot = cell then some ([cell], []) else none
  | arithmetic _ => some ([.int, .int], [.int])
  | jumpInts _ _ => some ([.int, .int], [])
  | jumpReferences _ _ => some ([.reference, .reference], [])
  | jumpZero _ | jumpNonzero _ => some ([.int], [])
  | goto _ | returnVoid => some ([], [])
  | newArray _ _ => some ([.int], [.reference])
  | arrayLength => some ([.reference], [.int])
  | arrayLoad element => some ([.int, .reference], [element.cell])
  | arrayStore element => some ([element.cell, .int, .reference], [])
  | getField owner name type => do
    let cell ← Cell.ofDescriptor? (descriptor type)
    if m.field owner name = cell then some ([.reference], [cell]) else none
  | putField owner name type => do
    let cell ← Cell.ofDescriptor? (descriptor type)
    if m.field owner name = cell then some ([cell, .reference], []) else none
  | print _ none => some ([.reference], [])
  | print _ (some type) => do
    let cell ← Cell.ofDescriptor? (printDescriptor type)
    return ([cell, .reference], [])
  | invokeConstructor _ params => callKinds? params .void
  | invokeVirtual _ _ params returns | invokeInterface _ _ params returns =>
    callKinds? params returns
  | returnInt => some ([.int], [])
  | returnReference => some ([.reference], [])
  | pop | dup | dup2 => none

/-- An instruction takes cells of the first kinds off the stack, top first, and puts cells of the
second ones in their place. -/
inductive Instruction.Turns (m : Storage) : Instruction → List Cell → List Cell → Prop
  | fixed {i : Instruction} {takes gives : List Cell} : i.kinds? m = some (takes, gives) →
      Turns m i takes gives
  | pop (cell : Cell) : Turns m .pop [cell] []
  | dup (cell : Cell) : Turns m .dup [cell] [cell, cell]
  | dup2 (first second : Cell) :
      Turns m .dup2 [first, second] [first, second, first, second]

/-- The kinds of the cells on a stack, top first. -/
abbrev Shape := List Cell

/-- The places that a run comes to from the start of a program, with the stack there. -/
inductive Course (m : Storage) (program : Segment) (start : Shape) : Nat → Shape → Prop
  | start : Course m program start 0 start
  | label {p : Nat} {l : Label} {shape : Shape} : Course m program start p shape →
      program[p]? = some (.label l) → Course m program start (p + 1) shape
  | op {p q : Nat} {i : Instruction} {takes gives rest : List Cell} :
      Course m program start p (takes ++ rest) → program[p]? = some (.op i) →
      i.Turns m takes gives → Follows program p q → Course m program start q (gives ++ rest)

/-- Every run through a program, whatever the cells that it starts with, finds what the instructions
want among the cells that it has put itself. It goes on and on until it comes to the end of the
program, and there one cell lies on those that it started with. -/
structure LeavesCell (m : Storage) (program : Segment) (result : Cell) : Prop where
  operands : ∀ below p shape, Course m program below p shape → ∀ i, program[p]? = some (.op i) →
    ∃ takes gives own, i.Turns m takes gives ∧ shape = takes ++ own ++ below
  advances : ∀ below p shape, Course m program below p shape → p < program.length →
    (∃ q, Follows program p q) ∧ ∀ q, Follows program p q → p < q ∧ q ≤ program.length
  ends : ∀ below shape, Course m program below program.length shape → shape = result :: below

/-! ## Determinacy -/

section Turns

variable {m : Storage} {i : Instruction} {takes gives takes' gives' rest rest' : List Cell}

theorem length_of_argumentKinds? {params : List Ty} (h : argumentKinds? params = some takes) :
    takes.length = params.length := by
  induction params generalizing takes with
  | nil =>
    cases h
    rfl
  | cons param params ih =>
    obtain ⟨cell, -, h⟩ := Option.bind_eq_some_iff.1 h
    obtain ⟨above, habove, h⟩ := Option.bind_eq_some_iff.1 h
    cases h
    rw [List.length_append, ih habove]
    rfl

theorem length_of_callKinds? {params : List Ty} {returns : Ty}
    (h : callKinds? params returns = some (takes, gives)) : takes.length = params.length + 1 := by
  obtain ⟨arguments, harguments, h⟩ := Option.bind_eq_some_iff.1 h
  obtain ⟨result, -, h⟩ := Option.bind_eq_some_iff.1 h
  cases h
  rw [List.length_append, length_of_argumentKinds? harguments]
  rfl

theorem length_of_kinds? (h : i.kinds? m = some (takes, gives)) : takes.length = i.pops := by
  cases i with
  | load cell slot | store cell slot =>
    obtain ⟨-, h⟩ := Option.ite_none_right_eq_some.1 h
    cases h
    rfl
  | getField owner name type | putField owner name type =>
    obtain ⟨cell, -, h⟩ := Option.bind_eq_some_iff.1 h
    obtain ⟨-, h⟩ := Option.ite_none_right_eq_some.1 h
    cases h
    rfl
  | print line type =>
    cases type with
    | none =>
      cases h
      rfl
    | some type =>
      obtain ⟨cell, -, h⟩ := Option.bind_eq_some_iff.1 h
      cases h
      rfl
  | invokeConstructor owner params => exact length_of_callKinds? h
  | invokeVirtual owner name params returns => exact length_of_callKinds? h
  | invokeInterface owner name params returns => exact length_of_callKinds? h
  | pop | dup | dup2 => cases h
  | _ =>
    cases h
    rfl

theorem Instruction.Turns.length_takes (h : i.Turns m takes gives) : takes.length = i.pops := by
  cases h with
  | fixed h => exact length_of_kinds? h
  | pop => rfl
  | dup => rfl
  | dup2 => rfl

/-- What an instruction finds on top of the stack determines what it takes and puts. -/
theorem Instruction.Turns.unique (h : i.Turns m takes gives) (h' : i.Turns m takes' gives')
    (heq : takes ++ rest = takes' ++ rest') : takes = takes' ∧ gives = gives' ∧ rest = rest' := by
  obtain ⟨rfl, rfl⟩ := List.append_inj heq (h.length_takes.trans h'.length_takes.symm)
  refine ⟨rfl, ?_, rfl⟩
  cases h with
  | fixed h =>
    cases h' with
    | fixed h' => exact (Prod.ext_iff.1 (Option.some.inj (h.symm.trans h'))).2
    | pop => cases h
    | dup => cases h
    | dup2 => cases h
  | pop =>
    cases h' with
    | fixed h' => cases h'
    | pop => rfl
  | dup =>
    cases h' with
    | fixed h' => cases h'
    | dup => rfl
  | dup2 =>
    cases h' with
    | fixed h' => cases h'
    | dup2 => rfl

end Turns

/-! ## Scans -/

/-- A label with the stack there. -/
abbrev Landing := Label × Shape

/-- A scan of code from in front of it to behind it. Where nothing comes to a place there is no stack
there. The labels in the code are listed with their stacks; a jump leads to one behind it or to an
exit, and brings along the stack there. -/
inductive Passes (m : Storage) (exits : List Landing) :
    Option Shape → Segment → Option Shape → List Landing → Prop
  | nil {s : Option Shape} : Passes m exits s [] s []
  | label {s s' : Option Shape} {shape : Shape} {l : Label} {rest : Segment}
      {landings : List Landing} : s = none ∨ s = some shape →
      Passes m exits (some shape) rest s' landings →
      Passes m exits s (.label l :: rest) s' ((l, shape) :: landings)
  | alternative {s s' : Option Shape} {rest : Segment} {landings : List Landing} :
      Passes m exits s rest s' landings → Passes m exits s (.alternative :: rest) s' landings
  | op {s' : Option Shape} {i : Instruction} {takes gives : List Cell} {shape : Shape}
      {rest : Segment} {landings : List Landing} : i.Turns m takes gives → i.isReturn = false →
      (∀ l, i.target? = some l → (l, gives ++ shape) ∈ landings ++ exits) →
      Passes m exits (if i.isGoto then none else some (gives ++ shape)) rest s' landings →
      Passes m exits (some (takes ++ shape)) (.op i :: rest) s' landings

namespace Passes

variable {m : Storage} {exits exits' : List Landing} {s s' s'' : Option Shape} {code rest : Segment}
  {landings landings' : List Landing}

/-- More exits do no harm. -/
theorem mono (h : Passes m exits s code s' landings) (hsub : ∀ j ∈ exits, j ∈ exits') :
    Passes m exits' s code s' landings := by
  induction h with
  | nil => exact .nil
  | label hs _ ih => exact .label hs ih
  | alternative _ ih => exact .alternative ih
  | op hturns hreturn hjump _ ih =>
    refine .op hturns hreturn (fun l hl => ?_) ih
    exact List.mem_append.2 ((List.mem_append.1 (hjump l hl)).imp_right (hsub _))

/-- The labels of code are exits of the code in front of it. -/
theorem append (h : Passes m (landings' ++ exits) s code s' landings)
    (h' : Passes m exits s' rest s'' landings') :
    Passes m exits s (code ++ rest) s'' (landings ++ landings') := by
  induction h with
  | nil => exact h'
  | label hs _ ih => exact .label hs (ih h')
  | alternative _ ih => exact .alternative (ih h')
  | op hturns hreturn hjump _ ih =>
    refine .op hturns hreturn (fun l hl => ?_) (ih h')
    rw [List.append_assoc]
    exact hjump l hl

/-- The corrections of the depth do not matter. -/
theorem written (h : Passes m exits s code s' landings) :
    Passes m exits s (written code) s' landings := by
  induction h with
  | nil => exact .nil
  | label hs _ ih => exact .label hs ih
  | alternative _ ih => exact ih
  | op hturns hreturn hjump _ ih => exact .op hturns hreturn hjump ih

/-- The scan goes on at each of the labels. -/
theorem exists_label (h : Passes m exits s code s' landings) {l : Label} {shape : Shape}
    (hmem : (l, shape) ∈ landings) : ∃ front back landings', code = front ++ .label l :: back ∧
      Passes m exits (some shape) (.label l :: back) s' landings' := by
  induction h with
  | nil => cases hmem
  | @label s s' shape' l' rest landings hs hrest ih =>
    rcases List.mem_cons.1 hmem with heq | hmem
    · cases heq
      exact ⟨[], rest, _, rfl, .label (.inr rfl) hrest⟩
    · obtain ⟨front, back, landings', rfl, hback⟩ := ih hmem
      exact ⟨.label l' :: front, back, landings', rfl, hback⟩
  | alternative _ ih =>
    obtain ⟨front, back, landings', rfl, hback⟩ := ih hmem
    exact ⟨.alternative :: front, back, landings', rfl, hback⟩
  | @op _ i _ _ _ _ _ _ _ _ _ ih =>
    obtain ⟨front, back, landings', rfl, hback⟩ := ih hmem
    exact ⟨.op i :: front, back, landings', rfl, hback⟩

/-- In a program whose labels are different, a jump leads to a place behind it, and the scan goes on
there. -/
theorem exists_position (h : Passes m exits s rest s' landings) (front : Segment)
    (item : Item Instruction) (hn : (labelsOf (front ++ item :: rest)).Nodup) {l : Label}
    {shape : Shape} (hmem : (l, shape) ∈ landings) :
    ∃ q landings', position (front ++ item :: rest) l = some q ∧ front.length < q ∧
      Passes m exits (some shape) ((front ++ item :: rest).drop q) s' landings' := by
  obtain ⟨middle, back, landings', rfl, hback⟩ := h.exists_label hmem
  have hsplit : front ++ item :: (middle ++ .label l :: back) =
      (front ++ item :: middle) ++ .label l :: back := by
    simp
  rw [hsplit] at hn ⊢
  have hfresh : l ∉ labelsOf (front ++ item :: middle) := by
    rw [labelsOf_append, labelsOf_label] at hn
    exact fun hl => (List.nodup_append.1 hn).2.2 l hl l List.mem_cons_self rfl
  refine ⟨_, landings', position_append hfresh back, ?_, ?_⟩
  · simp
  · rw [List.drop_left]
    exact hback

/-- What a scan at an instruction says of it and of the places that may follow. -/
theorem at_op {program : Segment} {own : Shape} {p : Nat} {i : Instruction}
    (h : Passes m [] (some own) (program.drop p) s' landings) (hn : (labelsOf program).Nodup)
    (hp : program[p]? = some (.op i)) : ∃ takes gives rest, own = takes ++ rest ∧
      i.Turns m takes gives ∧ i.isReturn = false ∧
      (i.isGoto = false →
        ∃ landings', Passes m [] (some (gives ++ rest)) (program.drop (p + 1)) s' landings') ∧
      ∀ l, i.target? = some l → ∃ q landings', position program l = some q ∧ p < q ∧
        Passes m [] (some (gives ++ rest)) (program.drop q) s' landings' := by
  obtain ⟨hlt, hitem⟩ := List.getElem?_eq_some_iff.1 hp
  have hsplit : program = program.take p ++ .op i :: program.drop (p + 1) := by
    rw [← hitem, List.getElem_cons_drop, List.take_append_drop]
  have hlength : (program.take p).length = p := List.length_take_of_le (Nat.le_of_lt hlt)
  rw [List.drop_eq_getElem_cons hlt, hitem] at h
  generalize hbefore : some own = before at h
  cases h with
  | @op _ _ takes gives rest _ _ hturns hreturn hjump hrest =>
    cases hbefore
    refine ⟨takes, gives, rest, rfl, hturns, hreturn, fun hgoto => ?_, fun l hl => ?_⟩
    · rw [if_neg (Bool.eq_false_iff.1 hgoto)] at hrest
      exact ⟨_, hrest⟩
    · have hmem := hjump l hl
      rw [List.append_nil] at hmem
      have hthere := hrest.exists_position (program.take p) (.op i) (hsplit ▸ hn) hmem
      rw [← hsplit, hlength] at hthere
      exact hthere

/-- At each place that a run comes to, the scan goes on with the cells that the code has put. -/
theorem along {start below : Shape} (h : Passes m [] (some start) code s' landings)
    (hn : (labelsOf code).Nodup) {p : Nat} {shape : Shape}
    (hc : Course m code (start ++ below) p shape) :
    ∃ own landings', shape = own ++ below ∧ Passes m [] (some own) (code.drop p) s' landings' := by
  induction hc with
  | start => exact ⟨start, landings, rfl, h⟩
  | label _ hp ih =>
    obtain ⟨own, landings', rfl, hscan⟩ := ih
    obtain ⟨hlt, hitem⟩ := List.getElem?_eq_some_iff.1 hp
    rw [List.drop_eq_getElem_cons hlt, hitem] at hscan
    cases hscan with
    | label hown hrest =>
      obtain rfl := Option.some.inj (hown.resolve_left nofun)
      exact ⟨own, _, rfl, hrest⟩
  | op _ hp hturns hnext ih =>
    obtain ⟨own, landings', hshape, hscan⟩ := ih
    obtain ⟨takes', gives', own', rfl, hturns', -, hbehind, hjump⟩ := hscan.at_op hn hp
    rw [List.append_assoc] at hshape
    obtain ⟨rfl, rfl, rfl⟩ := hturns.unique hturns' hshape
    cases hnext with
    | label hp' => cases hp.symm.trans hp'
    | next hp' hgoto _ =>
      cases hp.symm.trans hp'
      obtain ⟨landings'', hrest⟩ := hbehind hgoto
      exact ⟨_, landings'', (List.append_assoc ..).symm, hrest⟩
    | jump hp' htarget hposition =>
      cases hp.symm.trans hp'
      obtain ⟨q, landings'', hq, -, hthere⟩ := hjump _ htarget
      cases hposition.symm.trans hq
      exact ⟨_, landings'', (List.append_assoc ..).symm, hthere⟩

/-- A place of a program is followed by others, all of them behind it. -/
theorem advances {program : Segment} {own : Shape} {p : Nat} {item : Item Instruction}
    (h : Passes m [] (some own) (program.drop p) s' landings) (hn : (labelsOf program).Nodup)
    (hp : program[p]? = some item) (hwritten : item.isWritten = true) :
    (∃ q, Follows program p q) ∧ ∀ q, Follows program p q → p < q ∧ q ≤ program.length := by
  obtain ⟨hlt, -⟩ := List.getElem?_eq_some_iff.1 hp
  cases item with
  | alternative => cases hwritten
  | label l =>
    refine ⟨⟨p + 1, .label hp⟩, fun q hq => ?_⟩
    cases hq with
    | label => exact ⟨Nat.lt_succ_self p, hlt⟩
    | next hp' => cases hp.symm.trans hp'
    | jump hp' => cases hp.symm.trans hp'
  | op i =>
    obtain ⟨_, _, _, _, _, hreturn, _, hjump⟩ := h.at_op hn hp
    refine ⟨?_, fun q hq => ?_⟩
    · cases hgoto : i.isGoto with
      | false => exact ⟨p + 1, .next hp hgoto hreturn⟩
      | true =>
        cases i with
        | goto l =>
          obtain ⟨q, -, hq, -⟩ := hjump l rfl
          exact ⟨q, .jump hp rfl hq⟩
        | _ => cases hgoto
    · cases hq with
      | label hp' => cases hp.symm.trans hp'
      | next => exact ⟨Nat.lt_succ_self p, hlt⟩
      | jump hp' htarget hposition =>
        cases hp.symm.trans hp'
        obtain ⟨q', -, hq', hbehind, -⟩ := hjump _ htarget
        cases hposition.symm.trans hq'
        obtain ⟨hle, -⟩ := List.getElem?_eq_some_iff.1 (getElem?_of_position hq')
        exact ⟨hbehind, Nat.le_of_lt hle⟩

/-- Code whose labels are different leaves one cell if a scan of it does. -/
theorem leavesCell {result : Cell} (h : Passes m [] (some []) code (some [result]) landings)
    (hn : (labelsOf code).Nodup) : LeavesCell m (Assembly.written code) result := by
  have hscan := h.written
  have hlabels : (labelsOf (Assembly.written code)).Nodup := by
    rw [labelsOf_written]
    exact hn
  refine ⟨?_, ?_, ?_⟩
  · intro below p shape hc i hp
    obtain ⟨own, landings', rfl, hrest⟩ := hscan.along hlabels hc
    obtain ⟨takes, gives, own', rfl, hturns, -⟩ := hrest.at_op hlabels hp
    exact ⟨takes, gives, own', hturns, rfl⟩
  · intro below p shape hc hlt
    obtain ⟨own, landings', rfl, hrest⟩ := hscan.along hlabels hc
    have hp := List.getElem?_eq_getElem hlt
    exact hrest.advances hlabels hp (List.mem_filter.1 (List.mem_of_getElem? hp)).2
  · intro below shape hc
    obtain ⟨own, landings', rfl, hrest⟩ := hscan.along hlabels hc
    rw [List.drop_length] at hrest
    cases hrest
    rfl

end Passes

/-! ## Code that takes a stack to another one -/

/-- A scan takes one stack to another one. -/
def Leads (m : Storage) (exits : List Landing) (shape : Shape) (code : Segment) (shape' : Shape) :
    Prop :=
  ∃ landings, Passes m exits (some shape) code (some shape') landings

namespace Leads

variable {m : Storage} {exits : List Landing} {shape shape' shape'' : Shape} {code rest : Segment}
  {i : Instruction}

theorem nil : Leads m exits shape [] shape := ⟨[], .nil⟩

/-- Code without jumps to the outside. -/
theorem closed (h : Leads m [] shape code shape') : Leads m exits shape code shape' := by
  obtain ⟨landings, hscan⟩ := h
  exact ⟨landings, hscan.mono nofun⟩

theorem append (h : Leads m exits shape code shape') (h' : Leads m exits shape' rest shape'') :
    Leads m exits shape (code ++ rest) shape'' := by
  obtain ⟨landings, hscan⟩ := h
  obtain ⟨landings', hscan'⟩ := h'
  exact ⟨_, (hscan.mono fun _ => List.mem_append_right _).append hscan'⟩

/-- An instruction that does not jump. -/
theorem plain (takes gives : List Cell) (h : i.Turns m takes gives) (hreturn : i.isReturn = false)
    (ht : i.target? = none) : Leads m exits (takes ++ shape) [.op i] (gives ++ shape) := by
  have hgoto : i.isGoto = false := by
    cases i with
    | goto => cases ht
    | _ => rfl
  refine ⟨[], .op h hreturn (fun l hl => ?_) ?_⟩
  · cases ht.symm.trans hl
  · rw [if_neg (Bool.eq_false_iff.1 hgoto)]
    exact .nil

/-- An instruction that may jump to an exit, or go on. -/
theorem jump {l : Label} (takes gives : List Cell) (h : i.Turns m takes gives)
    (hreturn : i.isReturn = false) (hgoto : i.isGoto = false) (ht : i.target? = some l)
    (he : (l, gives ++ shape) ∈ exits) :
    Leads m exits (takes ++ shape) [.op i] (gives ++ shape) := by
  refine ⟨[], .op h hreturn (fun l' hl => ?_) ?_⟩
  · cases ht.symm.trans hl
    exact he
  · rw [if_neg (Bool.eq_false_iff.1 hgoto)]
    exact .nil

end Leads

end Javelet.Assembly
