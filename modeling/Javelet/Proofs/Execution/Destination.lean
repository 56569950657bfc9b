import Javelet.Proofs.Execution.Still
import Javelet.Proofs.Lowering.Renumbered

/-!
# Where an assignment stores

The four shapes of a target have one form: some code that leaves the object, the array and the
index, or nothing, instructions that copy what it leaves, one that loads the old value from there,
and one that stores the new value there. An assignment is lowered by its destination, and the target
as a value is lowered by the same destination.
-/
namespace Javelet.Execution

open Assembly Lowering

/-- Where an assignment stores. -/
structure Destination where
  /-- What leads there. -/
  code : Segment
  /-- Copies the words that the code leaves. -/
  copy : List Instruction
  load : Instruction
  store : Instruction
  type : Ty

namespace Destination

/-- The same destination with other labels. -/
@[simps] def relabel (ρ : Label → Label) (d : Destination) : Destination :=
  { d with code := Assembly.relabel ρ d.code }

/-- A local variable. -/
def variable_ (l : Local) : Destination := ⟨[], [], l.load, l.store, l.type⟩

/-- A field of an object. -/
def field (object : Segment) (owner name : String) (type : Ty) : Destination :=
  ⟨object, [.dup], .getField owner name type, .putField owner name type, type⟩

/-- An element of an array. -/
def element (arrayAndIndex : Segment) (type : Ty) : Destination :=
  ⟨arrayAndIndex, [.dup2], .arrayLoad (.ofTy type), .arrayStore (.ofTy type), type⟩

/-- Where the assignment to a bare name stores. -/
def ofName (env : Env) (name : String) (p : Position) : Lower Destination :=
  match env.local? name with
  | some l => pure (variable_ l)
  | none => do
    let found ← property env env.className name p
    return field (ops [.loadThis]) found.1 name found.2

/-- Where the assignment to a last step stores, behind the code of the steps before. -/
def ofLink (env : Env) (reached : Reached) (last : Link) : Lower Destination :=
  match last, reached.receiver with
  | .field p name, .value object =>
    if !object.isArray && object.isReference then do
      let found ← property env object.name name p
      return field reached.code found.1 name found.2
    else refuse .badTarget p
  | .index p i, .value array =>
    if array.isArray then do
      let place ← index env i
      return element (reached.code ++ place) array.element
    else refuse .badTarget p
  | link, _ => refuse .badTarget link.position

/-- Where the assignment to a target stores. -/
def ofTarget (env : Env) (target : Chain) : Lower Destination :=
  match target.links.getLast? with
  | none =>
    match target.head with
    | .name p name => ofName env name p
    | h => refuse .badTarget h.position
  | some last => do
    let start ← head env target.head
    let reached ← links env start target.links.dropLast
    ofLink env reached last

end Destination

variable {env : Env} {first next : Label} {code : Segment}

/-! ## Assignments by their destinations -/

/-- The parts of an assignment. -/
def Assigns (env : Env) (op : AssignOp) (value : Expr) (d : Destination) (first : Label)
    (code : Segment) (next : Label) : Prop :=
  ∃ v, Yields (expr env value) first v next ∧
    code = d.code ++ assigning op (d.copy ++ [d.load]) v.code d.store ∧
    (op ≠ .plain → d.type.isInteger = true ∧ v.type.isInteger = true)

theorem yields_assignName_iff {name : String} {p : Position} {op : AssignOp} {value : Expr} :
    Yields (assignName env name p op value) first code next ↔ ∃ d middle,
      Yields (Destination.ofName env name p) first d middle ∧
        Assigns env op value d middle code next := by
  cases hlocal : env.local? name with
  | some l =>
    simp only [assignName, Destination.ofName, hlocal, yields_bind, yields_storeLocal, yields_pure]
    constructor
    · rintro ⟨v, _, hv, rfl, rfl, hint⟩
      exact ⟨_, first, ⟨rfl, rfl⟩, v, hv, rfl, hint⟩
    · rintro ⟨_, _, ⟨rfl, rfl⟩, v, hv, rfl, hint⟩
      exact ⟨v, next, hv, rfl, rfl, hint⟩
  | none =>
    simp only [assignName, Destination.ofName, hlocal, yields_bind, yields_storeField, yields_pure]
    constructor
    · rintro ⟨found, _, hp, v, _, hv, _, _, ⟨rfl, rfl, hint⟩, rfl, rfl⟩
      exact ⟨_, _, ⟨found, _, hp, rfl, rfl⟩, v, hv, rfl, hint⟩
    · rintro ⟨_, _, ⟨found, _, hp, rfl, rfl⟩, v, hv, rfl, hint⟩
      exact ⟨found, _, hp, v, next, hv, _, _, ⟨rfl, rfl, hint⟩, rfl, rfl⟩

theorem yields_assignLink_iff {reached : Reached} (start : Position) {last : Link} {op : AssignOp}
    {value : Expr} :
    (∃ tail, Yields (assignLink env reached.receiver start last op value) first tail next ∧
      code = reached.code ++ tail) ↔ ∃ d middle,
      Yields (Destination.ofLink env reached last) first d middle ∧
        Assigns env op value d middle code next := by
  obtain ⟨before, receiver⟩ := reached
  cases last with
  | field p name =>
    cases receiver with
    | value object =>
      simp only [assignLink, Destination.ofLink, yields_ite, yields_bind, yields_storeField,
        yields_pure, yields_refuse, and_false, or_false]
      constructor
      · rintro ⟨_, ⟨hobject, found, _, hp, v, _, hv, rfl, rfl, hint⟩, rfl⟩
        exact ⟨_, _, ⟨hobject, found, _, hp, rfl, rfl⟩, v, hv, rfl, hint⟩
      · rintro ⟨_, _, ⟨hobject, found, _, hp, rfl, rfl⟩, v, hv, rfl, hint⟩
        exact ⟨_, ⟨hobject, found, _, hp, v, next, hv, rfl, rfl, hint⟩, rfl⟩
    | system => simp [assignLink, Destination.ofLink]
    | printStream => simp [assignLink, Destination.ofLink]
  | call p name args => simp [assignLink, Destination.ofLink]
  | index p i =>
    cases receiver with
    | value array =>
      simp only [assignLink, Destination.ofLink, yields_ite, yields_bind, yields_storeElement,
        yields_pure, yields_refuse, and_false, or_false]
      constructor
      · rintro ⟨_, ⟨harray, place, _, hplace, v, _, hv, _, _, ⟨rfl, rfl, hint⟩, rfl, rfl⟩, rfl⟩
        exact ⟨_, _, ⟨harray, place, _, hplace, rfl, rfl⟩, v, hv,
          (List.append_assoc ..).symm, hint⟩
      · rintro ⟨_, _, ⟨harray, place, _, hplace, rfl, rfl⟩, v, hv, rfl, hint⟩
        exact ⟨_, ⟨harray, place, _, hplace, v, next, hv, _, _, ⟨rfl, rfl, hint⟩, rfl, rfl⟩,
          List.append_assoc ..⟩
    | system => simp [assignLink, Destination.ofLink]
    | printStream => simp [assignLink, Destination.ofLink]

/-- An assignment is lowered by its destination. -/
theorem yields_assignment_iff {a : Assignment} :
    Yields (assignment env a) first code next ↔ ∃ d middle,
      Yields (Destination.ofTarget env a.target) first d middle ∧
        Assigns env a.op a.value d middle code next := by
  obtain ⟨op, ⟨head, links⟩, value⟩ := a
  simp only [assignment, Destination.ofTarget, Chain.links, Chain.head]
  cases hlast : links.getLast? with
  | none =>
    cases head with
    | name p name => exact yields_assignName_iff
    | this p => simp
    | call p name args => simp
  | some last =>
    simp only [yields_bind, yields_pure]
    constructor
    · rintro ⟨start, _, hs, reached, _, hr, tail, _, ht, rfl, rfl⟩
      obtain ⟨d, middle, hd, ha⟩ := (yields_assignLink_iff _).1 ⟨tail, ht, rfl⟩
      exact ⟨d, middle, ⟨start, _, hs, reached, _, hr, hd⟩, ha⟩
    · rintro ⟨d, middle, ⟨start, _, hs, reached, _, hr, hd⟩, ha⟩
      obtain ⟨tail, ht, rfl⟩ := (yields_assignLink_iff (Chain.position ⟨head, links⟩)).2
        ⟨d, middle, hd, ha⟩
      exact ⟨start, _, hs, reached, _, hr, tail, _, ht, rfl, rfl⟩

/-! ## Targets as values -/

theorem head_ofName {name : String} {p : Position} {d : Destination}
    (h : Yields (Destination.ofName env name p) first d next) :
    Yields (head env (.name p name)) first ⟨d.code ++ ops [d.load], .value d.type⟩ next := by
  rw [head, nameHead]
  cases hlocal : env.local? name with
  | some l =>
    simp only [Destination.ofName, hlocal, yields_pure] at h
    obtain ⟨rfl, rfl⟩ := h
    exact yields_pure.2 ⟨rfl, rfl⟩
  | none =>
    simp only [Destination.ofName, hlocal, yields_bind, yields_property, yields_pure] at h
    obtain ⟨_, _, ⟨owner, info, hfound, rfl, rfl⟩, rfl, rfl⟩ := h
    simp only [hfound]
    exact yields_pure.2 ⟨rfl, rfl⟩

theorem link_ofLink {reached : Reached} {last : Link} {d : Destination}
    (h : Yields (Destination.ofLink env reached last) first d next) :
    ∃ step, Yields (link env reached.receiver last) first step next ∧
      step.receiver = .value d.type ∧ reached.code ++ step.code = d.code ++ ops [d.load] := by
  obtain ⟨before, receiver⟩ := reached
  cases last with
  | field p name =>
    cases receiver with
    | value object =>
      simp only [Destination.ofLink, yields_ite, yields_bind, yields_pure, yields_refuse, and_false,
        or_false, Bool.and_eq_true, Bool.not_eq_true'] at h
      obtain ⟨⟨harray, href⟩, found, _, hp, rfl, rfl⟩ := h
      refine ⟨⟨ops [.getField found.1 name found.2], .value found.2⟩, ?_, rfl, rfl⟩
      simp only [link, fieldStep, harray, href, Bool.false_and, Bool.not_false, Bool.true_and,
        Bool.false_eq_true, if_false, if_true, yields_bind, yields_pure]
      exact ⟨found, _, hp, rfl, rfl⟩
    | system => simp [Destination.ofLink] at h
    | printStream => simp [Destination.ofLink] at h
  | call p name args => simp [Destination.ofLink] at h
  | index p i =>
    cases receiver with
    | value array =>
      simp only [Destination.ofLink, index, yields_ite, yields_bind, yields_pure, yields_refuse,
        and_false, or_false] at h
      obtain ⟨harray, place, _, ⟨v, _, hv, hplace⟩, rfl, rfl⟩ := h
      refine ⟨⟨place ++ ops [.arrayLoad (.ofTy array.element)], .value array.element⟩, ?_, rfl,
        (List.append_assoc ..).symm⟩
      simp only [link, harray, if_true, yields_bind, yields_pure]
      exact ⟨v, _, hv, place, _, hplace, rfl, rfl⟩
    | system => simp [Destination.ofLink] at h
    | printStream => simp [Destination.ofLink] at h

theorem yields_links_concat {start r : Reached} {ls : List Link} {last : Link} :
    Yields (links env start (ls ++ [last])) first r next ↔ ∃ reached middle step,
      Yields (links env start ls) first reached middle ∧
        Yields (link env reached.receiver last) middle step next ∧
        r = ⟨reached.code ++ step.code, step.receiver⟩ := by
  induction ls generalizing start first with
  | nil =>
    rw [List.nil_append, yields_links_cons]
    simp only [links, yields_pure]
    constructor
    · rintro ⟨step, _, hstep, rfl, rfl⟩
      exact ⟨start, first, step, ⟨rfl, rfl⟩, hstep, rfl⟩
    · rintro ⟨_, _, step, ⟨rfl, rfl⟩, hstep, rfl⟩
      exact ⟨step, next, hstep, rfl, rfl⟩
  | cons l ls ih =>
    simp only [List.cons_append, yields_links_cons, ih]
    constructor
    · rintro ⟨step, middle, hstep, reached, middle', last, hr, hlast, rfl⟩
      exact ⟨reached, middle', last, ⟨step, middle, hstep, hr⟩, hlast, rfl⟩
    · rintro ⟨reached, middle', last, ⟨step, middle, hstep, hr⟩, hlast, rfl⟩
      exact ⟨step, middle, hstep, reached, middle', last, hr, hlast, rfl⟩

/-- As a value, a target is loaded from its destination. -/
theorem chain_ofTarget {target : Chain} {d : Destination}
    (h : Yields (Destination.ofTarget env target) first d next) :
    Yields (chain env target) first ⟨d.code ++ ops [d.load], d.type⟩ next := by
  obtain ⟨head, ls⟩ := target
  simp only [Destination.ofTarget, Chain.links, Chain.head] at h
  cases hlast : ls.getLast? with
  | none =>
    rw [List.getLast?_eq_none_iff] at hlast
    subst hlast
    cases head with
    | name p name =>
      have hhead := head_ofName h
      refine yields_chain.2 ⟨_, ⟨d.code ++ ops [d.load], .value d.type⟩, next, hhead, ?_, rfl, rfl⟩
      rw [links]
      exact yields_pure.2 ⟨rfl, rfl⟩
    | this p => simp at h
    | call p name args => simp at h
  | some last =>
    obtain ⟨front, rfl⟩ := List.getLast?_eq_some_iff.1 hlast
    simp only [hlast, yields_bind, List.dropLast_concat] at h
    obtain ⟨start, middle, hs, reached, _, hr, hd⟩ := h
    obtain ⟨step, hstep, hvalue, hcode⟩ := link_ofLink hd
    exact yields_chain.2 ⟨start, _, middle, hs,
      yields_links_concat.2 ⟨reached, _, step, hr, hstep, rfl⟩, hvalue, hcode.symm⟩

theorem isVoid_of_isInteger {ty : Ty} (h : ty.isInteger = true) : ty.isVoid = false := by
  cases hvoid : ty.isVoid with
  | false => rfl
  | true =>
    simp only [Ty.isVoid, Bool.and_eq_true, beq_iff_eq] at hvoid
    simp [Ty.isInteger, hvoid.1] at h

theorem access_ofTarget {target : Chain} {d : Destination}
    (h : Yields (Destination.ofTarget env target) first d next) (hint : d.type.isInteger = true) :
    Yields (expr env (.access target)) first ⟨d.code ++ ops [d.load], d.type⟩ next :=
   yields_expr_access.2 ⟨chain_ofTarget h, isVoid_of_isInteger hint⟩

/-! ## Other labels -/

section Mirrors

variable {ρ : Label → Label}

theorem sees_self (env : Env) : env.Sees env := ⟨.refl _, rfl, rfl⟩

theorem ofName_mirrors (name : String) (p : Position) : Mirrors ρ (Destination.relabel ρ)
    (Destination.ofName env name p) (Destination.ofName env name p) := by
  unfold Destination.ofName
  split
  · exact .pure rfl
  · exact (property_mirrors (sees_self env) env.className name p).bind fun found => .pure rfl

theorem ofLink_mirrors (reached : Reached) (last : Link) : Mirrors ρ (Destination.relabel ρ)
    (Destination.ofLink env reached last) (Destination.ofLink env (reached.relabel ρ) last) := by
  unfold Destination.ofLink
  rw [Reached.relabel_receiver]
  split
  · split
    · exact (property_mirrors (sees_self env) _ _ _).bind fun found => .pure rfl
    · exact .refuse
  · split
    · refine (index_mirrors (sees_self env) _).bind fun place => .pure ?_
      simp [Destination.relabel, Destination.element]
    · exact .refuse
  · exact .refuse

theorem ofTarget_mirrors (target : Chain) : Mirrors ρ (Destination.relabel ρ)
    (Destination.ofTarget env target) (Destination.ofTarget env target) := by
  have hsees := sees_self env
  unfold Destination.ofTarget
  split
  · split
    · exact ofName_mirrors _ _
    · exact .refuse
  · refine (head_mirrors hsees fun e _ => expr_mirrors hsees e).bind fun start => ?_
    refine (links_mirrors hsees start fun _ _ e _ => expr_mirrors hsees e).bind fun reached => ?_
    exact ofLink_mirrors reached _

/-- What is lowered once is lowered again from any other label on. -/
theorem yields_again {α : Type} {x : Lower α} {f : (Label → Label) → α → α}
    (hx : ∀ ρ, Mirrors ρ (f ρ) x x) {a : α} (h : Yields x first a next) (first' : Label) :
    ∃ ρ next', Yields x first' (f ρ a) next' := by
  obtain ⟨count, rfl, hagain⟩ := hx (fun l => l - first + first') first a next h
  refine ⟨_, _, hagain first' fun k _ => ?_⟩
  show first + k - first + first' = first' + k
  rw [Nat.add_sub_cancel_left, Nat.add_comm]

theorem ofTarget_again {target : Chain} {d : Destination}
    (h : Yields (Destination.ofTarget env target) first d next) (first' : Label) :
    ∃ ρ next', Yields (Destination.ofTarget env target) first' (d.relabel ρ) next' :=
  yields_again (fun _ => ofTarget_mirrors target) h first'

theorem expr_again {e : Expr} {v : Typed} (h : Yields (expr env e) first v next) (first' : Label) :
    ∃ ρ next', Yields (expr env e) first' (v.relabel ρ) next' :=
  yields_again (fun _ => expr_mirrors (sees_self env) e) h first'

end Mirrors

/-! ## What leads to a destination -/

variable {World : Type} {p : Platform World}

/-- What leads to the destination only reads. -/
inductive Destination.Readable (p : Platform World) : Destination → Prop
  | variable_ (l : Local) : Readable p (.variable_ l)
  | field {object : Segment} (h : ReadsWord p object) (owner name : String) (type : Ty) :
    Readable p (.field object owner name type)
  | element {array index : Segment} (h : ReadsWord p array) (h' : ReadsWord p index) (type : Ty) :
    Readable p (.element (array ++ index) type)

theorem readable_ofName {name : String} {position : Position} {d : Destination}
    (h : Yields (Destination.ofName env name position) first d next) : d.Readable p := by
  unfold Destination.ofName at h
  split at h
  · obtain ⟨rfl, rfl⟩ := yields_pure.1 h
    exact .variable_ _
  · simp only [yields_bind, yields_pure] at h
    obtain ⟨found, _, _, rfl, rfl⟩ := h
    exact .field (load_readsWord .reference 0) found.1 name found.2

theorem readable_ofLink {reached : Reached} {last : Link} {d : Destination}
    (hstill : ∀ e ∈ last.operands, e.isStill = true)
    (hreached : ∀ ty, reached.receiver = .value ty → ReadsWord p reached.code)
    (h : Yields (Destination.ofLink env reached last) first d next) : d.Readable p := by
  unfold Destination.ofLink at h
  split at h
  · rename_i object hvalue
    simp only [yields_ite, yields_bind, yields_pure, yields_refuse, and_false, or_false] at h
    obtain ⟨_, found, _, _, rfl, rfl⟩ := h
    exact .field (hreached _ hvalue) found.1 _ found.2
  · rename_i i array hvalue
    simp only [index, yields_ite, yields_bind, yields_asIndex, yields_pure, yields_refuse,
      and_false, or_false] at h
    obtain ⟨_, _, _, ⟨v, _, hv, _, rfl, rfl⟩, rfl, rfl⟩ := h
    exact .element (hreached _ hvalue) (expr_readsWord (hstill i (List.mem_singleton.2 rfl)) hv) _
  · exact (yields_refuse h).elim

/-- What leads to a still target only reads. -/
theorem readable_ofTarget {target : Chain} (hstill : target.isStill = true) {d : Destination}
    (h : Yields (Destination.ofTarget env target) first d next) : d.Readable p := by
  obtain ⟨head, links⟩ := target
  rw [Chain.isStill_iff] at hstill
  simp only [Destination.ofTarget, Chain.links, Chain.head] at h
  split at h
  · split at h
    · exact readable_ofName h
    · exact (yields_refuse h).elim
  · rename_i last hlast
    obtain ⟨front, rfl⟩ := List.getLast?_eq_some_iff.1 hlast
    simp only [yields_bind, List.dropLast_concat] at h
    obtain ⟨start, middle, hs, reached, _, hr, hd⟩ := h
    have hfront : ∀ l ∈ front, l.isQuiet = true ∧ ∀ e ∈ l.operands, e.isStill = true :=
      fun l hl => hstill.2 l (List.mem_append_left _ hl)
    have hlast := (hstill.2 last (by simp)).2
    refine readable_ofLink hlast (fun ty hvalue => ?_) hd
    exact links_readsWord (fun l hl => (hfront l hl).1)
      (fun l hl e he => expr_readsWord ((hfront l hl).2 e he))
      (fun _ => head_readsWord hstill.1 hs) hr hvalue

end Javelet.Execution
