import Javelet.Proofs.Execution.Reading
import Javelet.Proofs.Lowering.Mirrors
import Javelet.Proofs.Syntax.Places

/-!
# Still expressions

An expression is still if it calls nothing and creates nothing. The code of a still expression only
reads: it pushes one word, which is told by the slots and the heap.
-/
namespace Javelet

/-- Whether a head is not a call. -/
def Head.isQuiet : Head → Bool
  | .call _ _ _ => false
  | _ => true

/-- Whether a link is not a call. -/
def Link.isQuiet : Link → Bool
  | .call _ _ _ => false
  | _ => true

/-- Whether an expression neither calls nor creates, apart from what its operands do. -/
def Expr.isQuiet : Expr → Bool
  | .literal _ _ => true
  | .binary _ _ _ => true
  | .access c => c.head.isQuiet && c.links.all Link.isQuiet
  | .newObject _ _ _ => false
  | .newArray _ _ _ => false

/-- Whether nothing is called and nothing is created in an expression. -/
def Expr.isStill (e : Expr) : Bool := e.parts.all Expr.isQuiet

def Chain.isStill (c : Chain) : Bool := (Expr.access c).isStill

theorem Expr.isStill_binary {op : BinaryOp} {left right : Expr} :
    (Expr.binary op left right).isStill = (left.isStill && right.isStill) := by
  simp [isStill, parts, isQuiet]

theorem Chain.isStill_iff {head : Head} {links : List Link} :
    (Chain.mk head links).isStill = true ↔
      head.isQuiet = true ∧ ∀ l ∈ links, l.isQuiet = true ∧ ∀ e ∈ l.operands, e.isStill = true := by
  have hhead : head.isQuiet = true → head.operands = [] := by
    cases head <;> simp [Head.isQuiet, Head.operands]
  simp only [isStill, Expr.isStill, Expr.parts, Chain.parts_eq, Chain.operands, List.all_cons,
    Expr.isQuiet, Chain.head, Chain.links, List.flatMap_append, List.all_append, List.all_flatMap,
    Bool.and_eq_true, List.all_eq_true]
  constructor
  · rintro ⟨⟨hh, hl⟩, -, ho⟩
    exact ⟨hh, fun l hmem => ⟨hl l hmem, fun e he => ho l hmem e he⟩⟩
  · rintro ⟨hh, hl⟩
    rw [hhead hh]
    exact ⟨⟨hh, fun l hmem => (hl l hmem).1⟩, by simp, fun l hmem => (hl l hmem).2⟩

namespace Execution

open Assembly Lowering

variable {World : Type} {p : Platform World} {code rest tail : Segment} {i : Instruction}

/-- The code pushes one word that it reads, whatever numbers its labels have. -/
def ReadsWord (p : Platform World) (code : Segment) : Prop :=
  ∃ w : Reading World Word, ∀ ρ, Reads p (relabel ρ code) w.one

namespace ReadsWord

/-- An instruction that pushes a word. -/
theorem push (w : Reading World Word) (hi : ∀ ρ, i.relabel ρ = i)
    (h : ∀ s : State World, p.perform i s = .give s (w s.slots s.heap)) :
    ReadsWord p (ops [i]) := by
  refine ⟨w, fun ρ => ?_⟩
  rw [relabel_ops, List.map_singleton, hi]
  exact .push h

/-- An instruction that puts another word in the place of one that is read. -/
theorem unary (f : Word → Reading World Word) (h : ReadsWord p code) (hi : ∀ ρ, i.relabel ρ = i)
    (hf : ∀ (s : State World) x, p.perform i (s.push x) = .give s (f x s.slots s.heap)) :
    ReadsWord p (code ++ ops [i]) := by
  obtain ⟨w, hw⟩ := h
  refine ⟨fun slots heap => (w slots heap) >>= fun x => f x slots heap, fun ρ => ?_⟩
  rw [relabel_append, relabel_ops, List.map_singleton, hi, Reading.one_bind]
  exact (hw ρ).followed fun program pos hstands s x => .op hstands (hf s x) (follow_give ..)

/-- Code behind two words that puts another word in the place of both. -/
theorem binary (f : Word → Word → Reading World Word) (h : ReadsWord p code)
    (h' : ReadsWord p rest)
    (htail : ∀ ρ program pos, Stands program pos (relabel ρ tail) → ∀ (s : State World) x y,
      SameEnds p program (.at pos ((s.push x).push y))
        (behind (pos + size (relabel ρ tail)) s ((f x y).one s.slots s.heap))) :
    ReadsWord p (code ++ rest ++ tail) := by
  obtain ⟨w, hw⟩ := h
  obtain ⟨v, hv⟩ := h'
  refine ⟨fun slots heap => (w slots heap) >>= fun x => (v slots heap) >>= fun y =>
    f x y slots heap, fun ρ => ?_⟩
  rw [relabel_append, relabel_append, Reading.one_bind]
  simp only [Reading.one_bind]
  exact (hw ρ).followed₂ (hv ρ) (htail ρ)

/-- An instruction that puts another word in the place of two. -/
theorem operation (f : Word → Word → Reading World Word) (h : ReadsWord p code)
    (h' : ReadsWord p rest) (hi : ∀ ρ, i.relabel ρ = i)
    (hf : ∀ (s : State World) x y,
      p.perform i ((s.push x).push y) = .give s (f x y s.slots s.heap)) :
    ReadsWord p (code ++ rest ++ ops [i]) := by
  refine h.binary f h' fun ρ program pos hstands s x y => ?_
  rw [relabel_ops, List.map_singleton, hi] at hstands ⊢
  exact .op hstands (hf s x y) (follow_give ..)

/-- A comparison leaves a truth value. -/
theorem comparison {other finish : Label} {b : Bool} (test : Word → Word → Except Trap Bool)
    (h : ReadsWord p code) (h' : ReadsWord p rest)
    (hi : ∀ ρ (s : State World) x y,
      p.perform (i.relabel ρ) ((s.push x).push y) = .branch s (ρ other) (test x y)) :
    ReadsWord p (code ++ rest ++ .op i :: choice b other finish) :=
  h.binary (fun x y _ _ => (test x y) >>= fun taken => .ok (.truth (taken != b))) h'
    fun ρ _ _ hstands s x y => branch_choice hstands (hi ρ s x y)

/-- A connective leaves a truth value. Its first operand may decide alone. -/
theorem connective {other finish : Label} {b : Bool} (test : Word → Except Trap Bool)
    (h : ReadsWord p code) (h' : ReadsWord p rest)
    (hi : ∀ ρ (s : State World) x,
      p.perform (i.relabel ρ) (s.push x) = .branch s (ρ other) (test x)) :
    ReadsWord p (code ++ .op i :: rest ++ .op i :: choice b other finish) := by
  obtain ⟨w, hw⟩ := h
  obtain ⟨v, hv⟩ := h'
  let second : Reading World Word := fun slots heap => (v slots heap) >>= fun y =>
    (test y) >>= fun taken => .ok (.truth (taken != b))
  refine ⟨fun slots heap => (w slots heap) >>= fun x => (test x) >>= fun decided =>
    if decided then .ok (.truth !b) else second slots heap, fun ρ => ?_⟩
  rw [List.append_assoc, relabel_append, Reading.one_bind]
  have htail : relabel ρ (.op i :: rest ++ .op i :: choice b other finish) =
      .op (i.relabel ρ) :: (relabel ρ rest ++
        .op (i.relabel ρ) :: choice b (ρ other) (ρ finish)) := by
    simp
  rw [htail]
  refine (hw ρ).followed fun program pos hstands s x => ?_
  have hend : pos + size (.op (i.relabel ρ) :: (relabel ρ rest ++
      .op (i.relabel ρ) :: choice b (ρ other) (ρ finish))) =
        pos + 1 + size (relabel ρ rest) + 6 := by
    simp only [size_op, size_append, size_choice]
    omega
  rw [hend]
  have hlast := hstands.behind_op.right
  obtain ⟨hother, hleave⟩ := choice_other (p := p) (s := s) hlast.behind_op
  refine (SameEnds.branch hstands (hi ρ s x) hother).trans ?_
  rcases test x with t | _ | _
  · exact .refl _
  · show SameEnds p program _ (behind _ s (second.one s.slots s.heap))
    rw [Reading.one_bind]
    exact (hv ρ program (pos + 1) hstands.behind_op.left s).trans
      (.bind rfl fun y => branch_choice hlast (hi ρ s y))
  · exact hleave

end ReadsWord

/-! ## Lowered expressions -/

variable {env : Env} {first next : Label}

theorem literal_readsWord (value : Literal) : ReadsWord p (literal value).code := by
  cases value with
  | int x => exact .push (i := .pushInt x) (fun _ _ => .ok (.int x)) (fun _ => rfl) fun _ => rfl
  | char c => exact .push (fun _ _ => .ok (.int (Int32.ofNat c.toNat))) (fun _ => rfl) fun _ => rfl
  | boolean b => exact .push (fun _ _ => .ok (.truth b)) (fun _ => rfl) fun _ => rfl
  | string t => exact .push (fun _ _ => .ok (p.text t)) (fun _ => rfl) fun _ => rfl
  | null => exact .push (fun _ _ => .ok .null) (fun _ => rfl) fun _ => rfl

theorem load_readsWord (cell : Cell) (slot : Nat) : ReadsWord p (ops [.load cell slot]) :=
  .push (fun slots _ => .ok (slots slot)) (fun _ => rfl) fun _ => rfl

theorem getField_readsWord (h : ReadsWord p code) (owner name : String) (type : Ty) :
    ReadsWord p (code ++ ops [.getField owner name type]) :=
  h.unary (fun x _ heap => heap.readField owner name type x) (fun _ => rfl) fun _ _ => rfl

/-- The jump of a comparison tests its two operands. -/
theorem exists_test {op : BinaryOp} {left right : Ty} {target : Label} {jump : Instruction}
    (h : comparisonJump? op left right target = some jump) :
    ∃ test : Word → Word → Except Trap Bool, ∀ (ρ : Label → Label) (s : State World) (x y : Word),
      p.perform (jump.relabel ρ) ((s.push x).push y) = .branch s (ρ target) (test x y) := by
  unfold comparisonJump? at h
  split at h
  · cases h
    exact ⟨compare (op.relation?.getD .equal), fun _ _ _ _ => rfl⟩
  · split at h
    · split at h
      · cases h
        exact ⟨fun x y => .ok (decide (x = y) == true), fun _ _ _ _ => rfl⟩
      · cases h
        exact ⟨fun x y => .ok (decide (x = y) == false), fun _ _ _ _ => rfl⟩
      · cases h
    · cases h

theorem head_readsWord {head : Head} {r : Reached} (hquiet : head.isQuiet = true)
    (hy : Yields (Lowering.head env head) first r next) {ty : Ty}
    (hvalue : r.receiver = .value ty) : ReadsWord p r.code := by
  cases head with
  | this position =>
    simp only [Lowering.head, yields_pure] at hy
    obtain ⟨rfl, rfl⟩ := hy
    exact load_readsWord .reference 0
  | name position name =>
    simp only [Lowering.head] at hy
    obtain ⟨rfl, ⟨l, _, rfl⟩ | ⟨owner, info, _, rfl⟩ | rfl⟩ := yields_nameHead hy
    · exact load_readsWord _ l.slot
    · exact getField_readsWord (load_readsWord .reference 0) owner.name name info.type
    · cases hvalue
  | call position name args => cases hquiet

/-- A step of a chain that is no call works on the word that is read before it. The print stream is
reached by steps too, but nothing is read from it. -/
theorem link_readsWord {link : Link} {start r : Reached} (hquiet : link.isQuiet = true)
    (ih : ∀ e ∈ link.operands, ∀ {first next v}, Yields (expr env e) first v next →
      ReadsWord p v.code)
    (hstart : ∀ ty, start.receiver = .value ty → ReadsWord p start.code)
    (hy : Yields (Lowering.link env start.receiver link) first r next) {ty : Ty}
    (hvalue : r.receiver = .value ty) : ReadsWord p (start.code ++ r.code) := by
  cases link with
  | field position name =>
    simp only [Lowering.link] at hy
    obtain ⟨rfl, ⟨_, rfl⟩ | ⟨array, hty, _, rfl⟩ | ⟨object, owner, info, hty, _, _, rfl⟩⟩ :=
      yields_fieldStep hy
    · cases hvalue
    · exact (hstart array hty).unary (fun x _ heap => heap.readLength x) (fun _ => rfl)
        fun _ _ => rfl
    · exact getField_readsWord (hstart object hty) owner.name name info.type
  | call position name args => cases hquiet
  | index position e =>
    obtain ⟨array, v, hty, _, hv, _, rfl⟩ := yields_link_index hy
    have hindex := ih e (List.mem_singleton.2 rfl) hv
    rw [← List.append_assoc]
    exact (hstart array hty).operation (fun x y _ heap => heap.readElement x y) hindex
      (fun _ => rfl) fun _ _ _ => rfl

theorem links_readsWord {links : List Link} {start r : Reached}
    (hquiet : ∀ l ∈ links, l.isQuiet = true)
    (ih : ∀ l ∈ links, ∀ e ∈ l.operands, ∀ {first next v}, Yields (expr env e) first v next →
      ReadsWord p v.code)
    (hstart : ∀ ty, start.receiver = .value ty → ReadsWord p start.code)
    (hy : Yields (Lowering.links env start links) first r next) {ty : Ty}
    (hvalue : r.receiver = .value ty) : ReadsWord p r.code := by
  induction links generalizing start first with
  | nil =>
    simp only [Lowering.links, yields_pure] at hy
    obtain ⟨rfl, rfl⟩ := hy
    exact hstart ty hvalue
  | cons link links ihlinks =>
    rw [List.forall_mem_cons] at hquiet
    obtain ⟨step, middle, hstep, hrest⟩ := yields_links_cons.1 hy
    exact ihlinks hquiet.2 (fun l hl => ih l (List.mem_cons_of_mem _ hl))
      (fun _ => link_readsWord hquiet.1 (ih link (List.mem_cons_self ..)) hstart hstep) hrest

/-- The code of a still expression pushes one word that it reads. -/
theorem expr_readsWord {e : Expr} (hstill : e.isStill = true) :
    ∀ {first next v}, Yields (expr env e) first v next → ReadsWord p v.code := by
  induction e using Expr.induction with
  | literal position value =>
    intro first next v hy
    simp only [expr, yields_pure] at hy
    obtain ⟨rfl, rfl⟩ := hy
    exact literal_readsWord value
  | binary op left right ihl ihr =>
    intro first next v hy
    rw [Expr.isStill_binary, Bool.and_eq_true] at hstill
    cases op with
    | arithmetic op =>
      obtain ⟨l, r, middle, hl, hr, _, _, rfl⟩ := yields_expr_arithmetic.1 hy
      exact (ihl hstill.1 hl).operation (fun x y _ _ => combine op x y) (ihr hstill.2 hr)
        (fun _ => rfl) fun _ _ _ => rfl
    | relation op =>
      obtain ⟨l, r, middle, yes, jump, hl, hr, hjump, rfl, rfl⟩ := yields_expr_relation.1 hy
      obtain ⟨test, htest⟩ := exists_test (p := p) hjump
      exact (ihl hstill.1 hl).comparison test (ihr hstill.2 hr) htest
    | connective op =>
      obtain ⟨l, r, middle, hl, _, hr, _, rfl⟩ := yields_expr_connective.1 hy
      cases op with
      | and =>
        exact (ihl hstill.1 hl).connective (holds false) (ihr hstill.2 hr) fun _ _ _ => rfl
      | or =>
        exact (ihl hstill.1 hl).connective (holds true) (ihr hstill.2 hr) fun _ _ _ => rfl
  | access head links ihh ihl =>
    intro first next v hy
    rw [show (Expr.access (.mk head links)).isStill = (Chain.mk head links).isStill from rfl,
      Chain.isStill_iff] at hstill
    obtain ⟨start, r, middle, hs, hr, hvalue, hcode⟩ :=
      yields_chain.1 (yields_expr_access.1 hy).1
    rw [hcode]
    exact links_readsWord (fun l hl => (hstill.2 l hl).1)
      (fun l hl e he => ihl l hl e he ((hstill.2 l hl).2 e he))
      (fun _ => head_readsWord hstill.1 hs) hr hvalue
  | newObject position className args ih => cases hstill
  | newArray position element length ih => cases hstill

end Execution

end Javelet
