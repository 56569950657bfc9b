import Javelet.Grammar.Expr
import Javelet.Proofs.Syntax.Names
import Javelet.Proofs.Token.Words

/-!
# What readers of expressions give

`Gives` says what holds of the value that a reader gives, and of the tokens behind it. There is a
rule for each way of putting readers together. With them the readers of expressions are seen to
give well-named expressions, as long as the identifiers among the tokens are plain names.
-/
namespace Javelet.Grammar

/-- If a reader succeeds, its value and the rest of the tokens are as told. -/
def Gives {α : Type} {bound : Nat} (o : Outcome α bound) (Q : α → List Token → Prop) : Prop :=
  ∀ p, o = .ok p → Q p.value p.rest

section Rules

variable {α β : Type} {bound bound' : Nat} {Q : α → List Token → Prop}

theorem Gives.ok {value : α} {rest : List Token} {h : rest.length < bound} (hq : Q value rest) :
    Gives (.ok ⟨value, rest, h⟩ : Outcome α bound) Q := by
  intro p hp
  cases hp
  exact hq

theorem Gives.error {fault : Located Fault} : Gives (.error fault : Outcome α bound) Q := nofun

theorem Gives.error_bind {fault : Located Fault} {f : β → Outcome α bound} :
    Gives (.error fault >>= f) Q := nofun

theorem Gives.imp {o : Outcome α bound} {R : α → List Token → Prop} (ho : Gives o R)
    (h : ∀ value rest, R value rest → Q value rest) : Gives o Q :=
  fun p hp => h p.value p.rest (ho p hp)

theorem Gives.bind {o : Outcome β bound'} {f : Parsed β bound' → Outcome α bound}
    {R : β → List Token → Prop} (ho : Gives o R)
    (hf : ∀ value rest h, R value rest → Gives (f ⟨value, rest, h⟩) Q) : Gives (o >>= f) Q := by
  intro p hp
  cases hres : o with
  | error fault =>
    rw [hres] at hp
    cases hp
  | ok q =>
    rw [hres] at hp
    exact hf q.value q.rest q.shorter (ho q hres) p hp

theorem Gives.map {o : Outcome α bound'} {f : Parsed α bound' → Parsed α bound} (ho : Gives o Q)
    (hf : ∀ p, (f p).value = p.value ∧ (f p).rest = p.rest) : Gives (o.map f) Q := by
  intro p hp
  cases hres : o with
  | error fault =>
    rw [hres] at hp
    cases hp
  | ok q =>
    rw [hres] at hp
    cases hp
    rw [(hf q).1, (hf q).2]
    exact ho q hres

theorem Gives.within {ts : List Token} {h : ts.length < bound} {o : Outcome α ts.length}
    (ho : Gives o Q) : Gives (within h o) Q :=
  ho.map fun _ => ⟨rfl, rfl⟩

theorem Gives.optionalWithin {ts : List Token} {h : ts.length < bound}
    {o : Outcome α (ts.length + 1)} (ho : Gives o Q) : Gives (optionalWithin h o) Q :=
  ho.map fun _ => ⟨rfl, rfl⟩

theorem Gives.behind {ts rest : List Token} {h : rest.length < ts.length + 1}
    {o : Outcome α rest.length} (ho : Gives o Q) : Gives (behind h o) Q :=
  ho.map fun _ => ⟨rfl, rfl⟩

end Rules

section Tokens

variable {ts : List Token} {finish : Position}

theorem accept_eq_some {test : Token → Bool} {p : Parsed Token ts.length}
    (h : accept test ts = some p) : ts = p.value :: p.rest ∧ test p.value = true := by
  cases ts with
  | nil => cases h
  | cons t rest =>
    simp only [accept] at h
    split at h
    · cases h
      exact ⟨rfl, ‹_›⟩
    · cases h

/-- The tokens behind an accepted one. -/
theorem namesPlain_accept {test : Token → Bool} {p : Parsed Token ts.length} (hts : NamesPlain ts)
    (h : accept test ts = some p) : NamesPlain p.rest := by
  rw [(accept_eq_some h).1] at hts
  exact hts.tail

theorem expectSymbol_gives {s : Symbol} {what : String} (hts : NamesPlain ts) :
    Gives (expectSymbol finish s what ts) fun _ rest => NamesPlain rest := by
  unfold expectSymbol
  split
  · rename_i p hp
    exact .ok (namesPlain_accept hts hp)
  · exact .error

theorem expectKeyword_gives {word what : String} (hts : NamesPlain ts) :
    Gives (expectKeyword finish word what ts) fun _ rest => NamesPlain rest := by
  unfold expectKeyword
  split
  · rename_i p hp
    exact .ok (namesPlain_accept hts hp)
  · exact .error

theorem expectName_gives {what : String} (hts : NamesPlain ts) :
    Gives (expectName finish what ts) fun name rest => ValueName name ∧ NamesPlain rest := by
  unfold expectName
  split
  · rename_i t rest h hp
    obtain ⟨hsplit, htest⟩ := accept_eq_some hp
    have hmem : t ∈ ts := by
      rw [hsplit]
      exact List.mem_cons_self ..
    exact .ok ⟨hts t hmem (by simpa using htest), namesPlain_accept hts hp⟩
  · exact .error

/-- A type name is an identifier or the name of a primitive type. -/
theorem typeName_gives {what : String} (hts : NamesPlain ts) :
    Gives (typeName finish what ts) fun name rest => ValueName name ∧ NamesPlain rest := by
  unfold typeName
  split
  · rename_i t rest h hp
    obtain ⟨hsplit, htest⟩ := accept_eq_some hp
    have hmem : t ∈ ts := by
      rw [hsplit]
      exact List.mem_cons_self ..
    refine .ok ⟨?_, namesPlain_accept hts hp⟩
    simp only [isTypeName, Bool.or_eq_true, Bool.and_eq_true, beq_iff_eq,
      List.contains_iff_mem] at htest
    rcases htest with hkind | ⟨-, hprim⟩
    · exact hts t hmem hkind
    · refine valueName_of_mem ?_
      simp only [primitiveTypes, List.mem_cons, List.not_mem_nil, or_false] at hprim
      rcases hprim with h | h | h <;> simp [h]
  · exact .error

theorem integerLiteral_gives {p : Option Position} {negative : Bool} (hts : NamesPlain ts) :
    Gives (integerLiteral finish p negative ts) fun e rest => e.WellNamed ∧ NamesPlain rest := by
  unfold integerLiteral
  split
  · exact .error
  · rename_i t rest h hp
    split
    · exact .ok ⟨.literal, namesPlain_accept hts hp⟩
    · exact .error

theorem namesPlain_acceptOperator {level : Level} {op : BinaryOp} {rest : List Token}
    {h : rest.length < ts.length} (hts : NamesPlain ts)
    (hop : acceptOperator level ts = some ⟨op, rest, h⟩) : NamesPlain rest := by
  cases ts with
  | nil => cases hop
  | cons t more =>
    simp only [acceptOperator] at hop
    split at hop
    · simp only [Option.map_eq_some_iff] at hop
      obtain ⟨_, -, he⟩ := hop
      cases he
      exact hts.tail
    · cases hop

end Tokens

/-! ## Expressions -/

theorem wellNamed_chain {head : Head} {links : List Link} (hh : ∀ e ∈ head.operands, e.WellNamed)
    (hl : ∀ l ∈ links, ∀ e ∈ l.operands, e.WellNamed) :
    (Chain.mk head links.reverse).WellNamed := by
  refine .access hh ?_
  intro l hm
  exact hl l (List.mem_reverse.1 hm)

mutual

theorem binary_gives (finish : Position) (level : Level) (ts : List Token)
    (hts : NamesPlain ts) :
    Gives (binary finish level ts) fun e rest => e.WellNamed ∧ NamesPlain rest := by
  rw [binary]
  refine .bind (operand_gives finish level ts hts) fun left rest h hleft => ?_
  exact operators_gives finish level ts.length left rest h hleft.1 hleft.2
termination_by 12 * ts.length + 2 * level.rank + 1
decreasing_by
  · omega
  · have := level.rank_pos
    omega

theorem operand_gives (finish : Position) (level : Level) (ts : List Token)
    (hts : NamesPlain ts) :
    Gives (operand finish level ts) fun e rest => e.WellNamed ∧ NamesPlain rest := by
  rw [operand]
  split
  · exact binary_gives finish _ ts hts
  · exact primary_gives finish ts hts
termination_by 12 * ts.length + 2 * level.rank
decreasing_by
  · have := Level.rank_tighter ‹_›
    omega
  · have := level.rank_pos
    omega

theorem operators_gives (finish : Position) (level : Level) (bound : Nat) (left : Expr)
    (ts : List Token) (h : ts.length < bound) (hleft : left.WellNamed) (hts : NamesPlain ts) :
    Gives (operators finish level bound left ts h) fun e rest => e.WellNamed ∧ NamesPlain rest := by
  rw [operators]
  split
  · exact .ok ⟨hleft, hts⟩
  · rename_i op rest h' hop
    have hrest := namesPlain_acceptOperator hts hop
    refine .bind (operand_gives finish level rest hrest).within fun right rest' h'' hright => ?_
    dsimp only
    split
    · exact operators_gives finish level bound _ rest' _ (.binary hleft hright.1) hright.2
    · exact .ok ⟨.binary hleft hright.1, hright.2⟩
termination_by 12 * ts.length
decreasing_by
  · have : level.rank ≤ 5 := by cases level <;> decide
    omega
  · omega

theorem primary_gives (finish : Position) (ts : List Token) (hts : NamesPlain ts) :
    Gives (primary finish ts) fun e rest => e.WellNamed ∧ NamesPlain rest := by
  match ts, hts with
  | [], _ =>
    rw [primary]
    exact .error
  | t :: rest, hts =>
    rw [primary]
    split
    · exact .ok ⟨.literal, hts.tail⟩
    · split
      · exact integerLiteral_gives hts
      · split
        · exact (integerLiteral_gives hts.tail).within
        · split
          · exact .error
          · split
            · refine .bind (binary_gives finish .disjunction rest hts.tail).within ?_
              intro value rest' h hvalue
              refine .bind (expectSymbol_gives hvalue.2).within fun _ rest'' h' hrest => ?_
              exact .ok ⟨hvalue.1, hrest⟩
            · split
              · exact creation_gives finish (t :: rest) hts
              · split
                · refine .bind (chain_gives finish (t :: rest) hts) fun value rest' h hvalue => ?_
                  exact .ok hvalue
                · exact .error
termination_by 12 * ts.length + 1
decreasing_by
  all_goals
    simp only [Level.rank, List.length_cons]
    omega

theorem creation_gives (finish : Position) (ts : List Token) (hts : NamesPlain ts) :
    Gives (creation finish ts) fun e rest => e.WellNamed ∧ NamesPlain rest := by
  rw [creation]
  refine .bind (expectKeyword_gives hts) fun _ rest h hrest => ?_
  refine .bind (typeName_gives hrest).within fun name rest' h' hname => ?_
  dsimp only
  split
  · exact .error
  · split
    · rename_i t more h'' hp
      have hmore := namesPlain_accept hname.2 hp
      refine .bind (binary_gives finish .disjunction more hmore).within fun length rest'' _ hl => ?_
      refine .bind (expectSymbol_gives hl.2).within fun _ _ _ hlast => ?_
      exact .ok ⟨.newArray hname.1 hl.1, hlast⟩
    · split
      · refine .bind (arguments_gives finish rest' hname.2).within fun args rest'' _ hargs => ?_
        exact .ok ⟨.newObject hargs.1, hargs.2⟩
      · exact .error
termination_by 12 * ts.length
decreasing_by
  all_goals
    have rank : Level.disjunction.rank = 5 := rfl
    omega

theorem chain_gives (finish : Position) (ts : List Token) (hts : NamesPlain ts) :
    Gives (chain finish ts) fun c rest => c.WellNamed ∧ NamesPlain rest := by
  rw [chain]
  dsimp only
  split
  · rename_i t rest h hp
    exact links_gives finish ts.length _ [] rest h nofun nofun (namesPlain_accept hts hp)
  · refine .bind (expectName_gives hts) fun name rest h hname => ?_
    dsimp only
    split
    · refine .bind (arguments_gives finish rest hname.2).within fun args rest' h' hargs => ?_
      exact links_gives finish ts.length _ [] rest' h' hargs.1 nofun hargs.2
    · exact links_gives finish ts.length _ [] rest h nofun nofun hname.2
termination_by 12 * ts.length
decreasing_by all_goals omega

theorem links_gives (finish : Position) (bound : Nat) (head : Head) (done : List Link)
    (ts : List Token) (h : ts.length < bound) (hhead : ∀ e ∈ head.operands, e.WellNamed)
    (hdone : ∀ l ∈ done, ∀ e ∈ l.operands, e.WellNamed) (hts : NamesPlain ts) :
    Gives (links finish bound head done ts h) fun c rest => c.WellNamed ∧ NamesPlain rest := by
  rw [links]
  dsimp only
  split
  · rename_i t rest h' hp
    refine .bind (expectName_gives (namesPlain_accept hts hp)).within fun name rest' h'' hname => ?_
    dsimp only
    split
    · refine .bind (arguments_gives finish rest' hname.2).within fun args rest'' _ hargs => ?_
      exact links_gives finish bound head _ rest'' _ hhead
        (List.forall_mem_cons.2 ⟨hargs.1, hdone⟩) hargs.2
    · exact links_gives finish bound head _ rest' _ hhead
        (List.forall_mem_cons.2 ⟨nofun, hdone⟩) hname.2
  · split
    · rename_i t rest h' hp
      have hrest := namesPlain_accept hts hp
      refine .bind (binary_gives finish .disjunction rest hrest).within fun i rest' _ hi => ?_
      refine .bind (expectSymbol_gives hi.2).within fun _ rest'' _ hlast => ?_
      have hindex : ∀ e ∈ [i], e.WellNamed := by simpa using hi.1
      exact links_gives finish bound head _ rest'' _ hhead
        (List.forall_mem_cons.2 ⟨hindex, hdone⟩) hlast
    · exact .ok ⟨wellNamed_chain hhead hdone, hts⟩
termination_by 12 * ts.length
decreasing_by
  all_goals
    have rank : Level.disjunction.rank = 5 := rfl
    omega

theorem arguments_gives (finish : Position) (ts : List Token) (hts : NamesPlain ts) :
    Gives (arguments finish ts) fun es rest => (∀ e ∈ es, e.WellNamed) ∧ NamesPlain rest := by
  rw [arguments]
  refine .bind (expectSymbol_gives hts) fun _ rest h hrest => ?_
  dsimp only
  split
  · rename_i t rest' h' hp
    exact .ok ⟨nofun, namesPlain_accept hrest hp⟩
  · exact moreArguments_gives finish ts.length [] rest h nofun hrest
termination_by 12 * ts.length + 1
decreasing_by omega

theorem moreArguments_gives (finish : Position) (bound : Nat) (done : List Expr)
    (ts : List Token) (h : ts.length < bound) (hdone : ∀ e ∈ done, e.WellNamed)
    (hts : NamesPlain ts) : Gives (moreArguments finish bound done ts h)
      fun es rest => (∀ e ∈ es, e.WellNamed) ∧ NamesPlain rest := by
  rw [moreArguments]
  refine .bind (binary_gives finish .disjunction ts hts) fun arg rest h' harg => ?_
  have hall : ∀ e ∈ arg :: done, e.WellNamed := List.forall_mem_cons.2 ⟨harg.1, hdone⟩
  dsimp only
  split
  · rename_i t rest' h'' hp
    obtain ⟨q, hq, he⟩ := Option.map_eq_some_iff.1 hp
    cases he
    exact moreArguments_gives finish bound _ _ _ hall (namesPlain_accept harg.2 hq)
  · refine .bind (expectSymbol_gives harg.2).within fun _ rest' _ hrest => ?_
    refine .ok ⟨?_, hrest⟩
    intro e he
    exact hall e (List.mem_reverse.1 he)
termination_by 12 * ts.length + 12
decreasing_by
  all_goals
    have rank : Level.disjunction.rank = 5 := rfl
    omega

end

end Javelet.Grammar
