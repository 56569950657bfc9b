import Javelet.Proofs.Grammar.Receivers
import Javelet.Proofs.Phrases.Expression
import Javelet.Proofs.Syntax.Marks

/-!
# Readers take phrases

What a reader of expressions takes off the front of a token list is a phrase of the tree it gives.
-/
namespace Javelet.Grammar

/-- The tokens in front of the rest are a phrase of the value. -/
def Taken {α : Type} (Phrase : List Token → α → Prop) (ts : List Token) (value : α)
    (rest : List Token) : Prop :=
  ∃ phrase, ts = phrase ++ rest ∧ Phrase phrase value

variable {ts : List Token} {finish : Position}

/-! ## Single tokens -/

theorem acceptSymbol_eq_some {s : Symbol} {t : Token} {rest : List Token}
    {h : rest.length < ts.length} (hp : acceptSymbol s ts = some ⟨t, rest, h⟩) :
    ts = t :: rest ∧ t.kind = .symbol s := by
  obtain ⟨hts, htest⟩ := accept_eq_some hp
  exact ⟨hts, by simpa using htest⟩

theorem acceptKeyword_eq_some {word : String} {t : Token} {rest : List Token}
    {h : rest.length < ts.length} (hp : acceptKeyword word ts = some ⟨t, rest, h⟩) :
    ts = t :: rest ∧ t.isKeyword word = true :=
  accept_eq_some hp

theorem expectSymbol_taken {s : Symbol} {what : String} :
    Gives (expectSymbol finish s what ts) fun t rest => ts = t :: rest ∧ t.kind = .symbol s := by
  unfold expectSymbol
  split
  · rename_i p hp
    exact .ok (acceptSymbol_eq_some hp)
  · exact .error

theorem expectKeyword_taken {word what : String} :
    Gives (expectKeyword finish word what ts) fun t rest =>
      ts = t :: rest ∧ t.isKeyword word = true := by
  unfold expectKeyword
  split
  · rename_i p hp
    exact .ok (acceptKeyword_eq_some hp)
  · exact .error

theorem expectName_taken {what : String} :
    Gives (expectName finish what ts) fun name rest =>
      ∃ t, ts = t :: rest ∧ t.kind = .identifier ∧ name = t.text := by
  unfold expectName
  split
  · rename_i t rest h hp
    obtain ⟨hts, hkind⟩ := accept_eq_some hp
    exact .ok ⟨t, hts, by simpa using hkind, rfl⟩
  · exact .error

theorem spellsTypeName_of_isTypeName {t : Token} (h : isTypeName t = true) :
    SpellsTypeName t t.text := by
  have hword : ∀ word, t.kind = .keyword → t.text = word → t.isKeyword word = true := by
    intro word hkind htext
    simp [Token.isKeyword, hkind, htext]
  simp only [isTypeName, Bool.or_eq_true, Bool.and_eq_true, beq_iff_eq, List.contains_iff_mem,
    primitiveTypes, List.mem_cons, List.not_mem_nil, or_false] at h
  rcases h with hkind | ⟨hkind, htext | htext | htext⟩
  · exact .identifier hkind
  · rw [htext]
    exact .int (hword _ hkind htext)
  · rw [htext]
    exact .char (hword _ hkind htext)
  · rw [htext]
    exact .boolean (hword _ hkind htext)

theorem typeName_taken {what : String} :
    Gives (typeName finish what ts) fun name rest =>
      ∃ t, ts = t :: rest ∧ SpellsTypeName t name := by
  unfold typeName
  split
  · rename_i t rest h hp
    obtain ⟨hts, htest⟩ := accept_eq_some hp
    exact .ok ⟨t, hts, spellsTypeName_of_isTypeName htest⟩
  · exact .error

theorem writes_of_operator? {level : Level} {s : Symbol} {op : BinaryOp}
    (h : level.operator? s = some op) : level.Writes s op := by
  unfold Level.operator? at h
  split at h <;> cases h <;> constructor

theorem above_of_tighter {level next : Level} (h : level.tighter = some next) :
    level.Above next := by
  cases level <;> cases h <;> constructor

theorem acceptOperator_eq_some {level : Level} {op : BinaryOp} {rest : List Token}
    {h : rest.length < ts.length} (hp : acceptOperator level ts = some ⟨op, rest, h⟩) :
    ∃ t s, ts = t :: rest ∧ t.kind = .symbol s ∧ level.Writes s op := by
  cases ts with
  | nil => cases hp
  | cons t more =>
    simp only [acceptOperator] at hp
    split at hp
    · rename_i s hkind
      obtain ⟨op, hop, he⟩ := Option.map_eq_some_iff.1 hp
      cases he
      exact ⟨t, s, rfl, hkind, writes_of_operator? hop⟩
    · cases hp

theorem spellsLiteral_of_literalOf? {t : Token} {value : Literal} (h : literalOf? t = some value) :
    SpellsLiteral [t] value := by
  unfold literalOf? at h
  split at h
  · rename_i hkind
    cases h
    exact .character hkind
  · rename_i hkind
    cases h
    exact .string hkind
  · rename_i hkind
    cases h
    exact .boolean hkind
  · rename_i hkind
    cases h
    exact .null hkind
  · cases h

/-- An integer literal stands at the given position or at its own. -/
theorem integerLiteral_taken {p : Option Position} {negative : Bool} :
    Gives (integerLiteral finish p negative ts) fun e rest =>
      ∃ t value, ts = t :: rest ∧ t.kind = .integer ∧ SpellsInteger negative t.text value ∧
        e.marked .none = .literal .start (.int value) := by
  unfold integerLiteral
  split
  · exact .error
  · rename_i t rest h hp
    obtain ⟨hts, hkind⟩ := accept_eq_some hp
    split
    · rename_i value hvalue
      exact .ok ⟨t, value, hts, by simpa using hkind, integerValue_eq_ok_iff.1 hvalue, rfl⟩
    · exact .error

/-! ## Expressions -/

/-- The tokens in front of the rest are links that go on with those that are read already. -/
def LinksTaken (head : Head) (done : List Link) (ts : List Token) (c : Chain)
    (rest : List Token) : Prop :=
  ∃ used new, ts = used ++ rest ∧ SpellsLinks used new ∧
    c.marked .none = .mk (head.marked .none) (done.reverse.map (Link.marked .none) ++ new)

/-- One more link. -/
theorem LinksTaken.cons {head : Head} {l : Link} {done : List Link} {last rest : List Token}
    {c : Chain} (hlinks : LinksTaken head (l :: done) last c rest) {m : List Token}
    (hts : ts = m ++ last) (hl : ∀ used new, SpellsLinks used new →
      SpellsLinks (m ++ used) (l.marked .none :: new)) : LinksTaken head done ts c rest := by
  obtain ⟨used, new, rfl, hnew, hc⟩ := hlinks
  exact ⟨m ++ used, l.marked .none :: new, by rw [hts, List.append_assoc], hl used new hnew,
    by simpa using hc⟩

theorem LinksTaken.chain {head : Head} {last rest : List Token} {c : Chain}
    (hlinks : LinksTaken head [] last c rest) {h : List Token} (hts : ts = h ++ last)
    (hhead : SpellsHead h (head.marked .none)) : Taken SpellsChain ts (c.marked .none) rest := by
  obtain ⟨used, new, rfl, hnew, hc⟩ := hlinks
  exact ⟨h ++ used, by rw [hts, List.append_assoc], hc ▸ .mk hhead hnew⟩

mutual

theorem binary_taken (finish : Position) (level : Level) (ts : List Token) :
    Gives (binary finish level ts) fun e => Taken (Spells level) ts (e.marked .none) := by
  rw [binary]
  refine .bind (operand_taken finish level ts) fun left rest h hleft => ?_
  obtain ⟨ls, hts, hls⟩ := hleft
  refine (operators_taken finish level ts.length left ls rest h (.operand hls)
    (fun hlevel => hlevel ▸ hls)).imp ?_
  rintro e rest' ⟨more, rfl, he⟩
  exact ⟨ls ++ more, by rw [hts, List.append_assoc], he⟩
termination_by 12 * ts.length + 2 * level.rank + 1
decreasing_by
  · omega
  · have := level.rank_pos
    omega

theorem operand_taken (finish : Position) (level : Level) (ts : List Token) :
    Gives (operand finish level ts) fun e => Taken (SpellsOperand level) ts (e.marked .none) := by
  rw [operand]
  split
  · rename_i next hnext
    refine (binary_taken finish next ts).imp ?_
    rintro e rest ⟨used, hts, he⟩
    exact ⟨used, hts, .tighter (above_of_tighter hnext) he⟩
  · rename_i hnone
    refine (primary_taken finish ts).imp ?_
    rintro e rest ⟨used, hts, he⟩
    cases level <;> cases hnone
    exact ⟨used, hts, .primary he⟩
termination_by 12 * ts.length + 2 * level.rank
decreasing_by
  · have := Level.rank_tighter ‹_›
    omega
  · have := level.rank_pos
    omega

/-- The operators that follow go on with the phrase `ls` of the expression on their left. -/
theorem operators_taken (finish : Position) (level : Level) (bound : Nat) (left : Expr)
    (ls ts : List Token) (h : ts.length < bound) (hleft : Spells level ls (left.marked .none))
    (hrelation : level = .relation → SpellsOperand .relation ls (left.marked .none)) :
    Gives (operators finish level bound left ts h) fun e =>
      Taken (fun used => Spells level (ls ++ used)) ts (e.marked .none) := by
  rw [operators]
  split
  · exact .ok ⟨[], rfl, by simpa using hleft⟩
  · rename_i op rest h' hop
    obtain ⟨t, s, hts, hkind, hwrites⟩ := acceptOperator_eq_some hop
    refine .bind (operand_taken finish level rest).within fun right rest' h'' hright => ?_
    obtain ⟨rs, hrest, hrs⟩ := hright
    have htaken : ts = t :: rs ++ rest' := by rw [hts, hrest, List.cons_append]
    dsimp only
    split
    · rename_i hchains
      have hlevel : level ≠ .relation := by
        rintro rfl
        cases hchains
      refine (operators_taken finish level bound (.binary op left right) (ls ++ t :: rs) rest' _
        (by simpa using .join hlevel hleft hkind hwrites hrs) (absurd · hlevel)).imp ?_
      rintro e last ⟨more, rfl, he⟩
      exact ⟨t :: rs ++ more, by simp [htaken], by simpa using he⟩
    · rename_i hchains
      have hlevel : level = .relation := by
        cases level <;> first | rfl | exact absurd rfl hchains
      subst hlevel
      exact .ok ⟨t :: rs, htaken, by simpa using .relate (hrelation rfl) hkind hwrites hrs⟩
termination_by 12 * ts.length
decreasing_by
  · have : level.rank ≤ 5 := by cases level <;> decide
    omega
  · omega

theorem primary_taken (finish : Position) (ts : List Token) :
    Gives (primary finish ts) fun e => Taken SpellsPrimary ts (e.marked .none) := by
  match ts with
  | [] =>
    rw [primary]
    exact .error
  | t :: rest =>
    rw [primary]
    split
    · rename_i value hvalue
      exact .ok ⟨[t], rfl, .literal (spellsLiteral_of_literalOf? hvalue)⟩
    · split
      · refine integerLiteral_taken.imp ?_
        rintro e rest' ⟨u, value, hts, hkind, hvalue, he⟩
        exact ⟨[u], hts, he ▸ .literal (.integer hkind hvalue)⟩
      · split
        · rename_i hminus
          have hsign : t.kind = .symbol .minus := by
            simp only [atNegativeInteger, atSymbol, Bool.and_eq_true] at hminus
            simpa using hminus.1
          refine integerLiteral_taken.within.imp ?_
          rintro e rest' ⟨u, value, rfl, hkind, hvalue, he⟩
          exact ⟨[t, u], rfl, he ▸ .literal (.negative hsign hkind hvalue)⟩
        · split
          · exact .error
          · split
            · rename_i hopen
              refine .bind (binary_taken finish .disjunction rest).within ?_
              rintro value rest' h ⟨used, rfl, hvalue⟩
              refine .bind expectSymbol_taken.within fun u rest'' h' hclose => ?_
              refine .ok ⟨t :: (used ++ [u]), by simp [hclose.1], ?_⟩
              exact .parenthesized hopen hvalue hclose.2
            · split
              · exact creation_taken finish (t :: rest)
              · split
                · refine .bind (chain_taken finish (t :: rest)) ?_
                  rintro value rest' h ⟨used, hts, hvalue⟩
                  exact .ok ⟨used, hts, by simpa using .access hvalue⟩
                · exact .error
termination_by 12 * ts.length + 1
decreasing_by
  all_goals
    simp only [Level.rank, List.length_cons]
    omega

theorem creation_taken (finish : Position) (ts : List Token) :
    Gives (creation finish ts) fun e => Taken SpellsPrimary ts (e.marked .none) := by
  rw [creation]
  refine .bind expectKeyword_taken fun word rest h hword => ?_
  refine .bind typeName_taken.within fun name rest' h' hname => ?_
  obtain ⟨t, hrest, ht⟩ := hname
  dsimp only
  split
  · exact .error
  · split
    · rename_i opening more h'' hp
      obtain ⟨hopening, hkind⟩ := acceptSymbol_eq_some hp
      refine .bind (binary_taken finish .disjunction more).within fun length rest'' _ hl => ?_
      obtain ⟨used, hmore, hlength⟩ := hl
      refine .bind expectSymbol_taken.within fun closing last _ hclose => ?_
      obtain ⟨rfl, hclose⟩ := hclose
      refine .ok ⟨word :: t :: opening :: (used ++ [closing]), ?_, ?_⟩
      · simp [hword.1, hrest, hopening, hmore]
      · exact .newArray hword.2 ht hkind hlength hclose
    · split
      · refine .bind (arguments_taken finish rest').within fun args rest'' _ hargs => ?_
        obtain ⟨used, hrest', hargs⟩ := hargs
        refine .ok ⟨word :: t :: used, by simp [hword.1, hrest, hrest'], ?_⟩
        simpa using .newObject hword.2 ht hargs
      · exact .error
termination_by 12 * ts.length
decreasing_by
  all_goals
    have rank : Level.disjunction.rank = 5 := rfl
    omega

theorem chain_taken (finish : Position) (ts : List Token) :
    Gives (chain finish ts) fun c => Taken SpellsChain ts (c.marked .none) := by
  rw [chain]
  dsimp only
  split
  · rename_i t rest h hp
    obtain ⟨hts, hthis⟩ := acceptKeyword_eq_some hp
    refine (links_taken finish ts.length _ [] rest h).imp fun c last hc => ?_
    exact hc.chain (h := [t]) hts (.this hthis)
  · refine .bind expectName_taken fun name rest h hname => ?_
    obtain ⟨t, hts, hkind, rfl⟩ := hname
    dsimp only
    split
    · refine .bind (arguments_taken finish rest).within fun args rest' h' hargs => ?_
      obtain ⟨used, hrest, hargs⟩ := hargs
      refine (links_taken finish ts.length _ [] rest' h').imp fun c last hc => ?_
      exact hc.chain (h := t :: used) (by simp [hts, hrest])
        (by simpa using .call hkind hargs)
    · refine (links_taken finish ts.length _ [] rest h).imp fun c last hc => ?_
      exact hc.chain (h := [t]) hts (.name hkind)
termination_by 12 * ts.length
decreasing_by all_goals omega

/-- The links that follow go on with those that are read already. -/
theorem links_taken (finish : Position) (bound : Nat) (head : Head) (done : List Link)
    (ts : List Token) (h : ts.length < bound) :
    Gives (links finish bound head done ts h) (LinksTaken head done ts) := by
  rw [links]
  dsimp only
  split
  · rename_i dot rest h' hp
    obtain ⟨hts, hdot⟩ := acceptSymbol_eq_some hp
    refine .bind expectName_taken.within fun name rest' h'' hname => ?_
    obtain ⟨t, hrest, hkind, rfl⟩ := hname
    dsimp only
    split
    · refine .bind (arguments_taken finish rest').within fun args rest'' _ hargs => ?_
      obtain ⟨used, hrest', hargs⟩ := hargs
      refine (links_taken finish bound head _ rest'' _).imp fun c last hc => ?_
      refine hc.cons (m := dot :: t :: used) (by simp [hts, hrest, hrest']) ?_
      intro ls new hnew
      simpa using .call hdot hkind hargs hnew
    · refine (links_taken finish bound head _ rest' _).imp fun c last hc => ?_
      refine hc.cons (m := [dot, t]) (by simp [hts, hrest]) ?_
      intro ls new hnew
      exact .field hdot hkind hnew
  · split
    · rename_i opening rest h' hp
      obtain ⟨hts, hopening⟩ := acceptSymbol_eq_some hp
      refine .bind (binary_taken finish .disjunction rest).within fun i rest' _ hi => ?_
      obtain ⟨used, hrest, hi⟩ := hi
      refine .bind expectSymbol_taken.within fun closing rest'' _ hclose => ?_
      obtain ⟨rfl, hclose⟩ := hclose
      refine (links_taken finish bound head _ rest'' _).imp fun c last hc => ?_
      refine hc.cons (m := opening :: (used ++ [closing])) (by simp [hts, hrest]) ?_
      intro ls new hnew
      simpa using .index hopening hi hclose hnew
    · exact .ok ⟨[], [], rfl, .nil, by simp⟩
termination_by 12 * ts.length
decreasing_by
  all_goals
    have rank : Level.disjunction.rank = 5 := rfl
    omega

theorem arguments_taken (finish : Position) (ts : List Token) :
    Gives (arguments finish ts) fun es =>
      Taken SpellsArguments ts (es.map (Expr.marked .none)) := by
  rw [arguments]
  refine .bind expectSymbol_taken fun opening rest h hopen => ?_
  dsimp only
  split
  · rename_i closing rest' h' hp
    obtain ⟨hrest, hclose⟩ := acceptSymbol_eq_some hp
    exact .ok ⟨[opening, closing], by simp [hopen.1, hrest], .none hopen.2 hclose⟩
  · refine (moreArguments_taken finish ts.length [] rest h).imp ?_
    rintro es rest' ⟨used, closing, new, rfl, hused, hclose, hes⟩
    refine ⟨opening :: (used ++ [closing]), by simp [hopen.1], ?_⟩
    rw [hes]
    exact .some hopen.2 hused hclose
termination_by 12 * ts.length + 1
decreasing_by omega

/-- The arguments that follow go on with those that are read already. -/
theorem moreArguments_taken (finish : Position) (bound : Nat) (done : List Expr)
    (ts : List Token) (h : ts.length < bound) :
    Gives (moreArguments finish bound done ts h) fun es rest =>
      ∃ used closing new, ts = used ++ closing :: rest ∧ SpellsSeries used new ∧
        closing.kind = .symbol .rightParen ∧
        es.map (Expr.marked .none) = done.reverse.map (Expr.marked .none) ++ new := by
  rw [moreArguments]
  refine .bind (binary_taken finish .disjunction ts) fun arg rest h' harg => ?_
  obtain ⟨used, hts, harg⟩ := harg
  dsimp only
  split
  · rename_i comma rest' h'' hp
    obtain ⟨q, hq, he⟩ := Option.map_eq_some_iff.1 hp
    cases he
    obtain ⟨hrest, hcomma⟩ := acceptSymbol_eq_some (t := q.value) (h := q.shorter) hq
    refine (moreArguments_taken finish bound (arg :: done) _ _).imp ?_
    rintro es last ⟨more, closing, new, hmore, hnew, hclose, hes⟩
    refine ⟨used ++ q.value :: more, closing, arg.marked .none :: new, ?_, ?_, hclose, ?_⟩
    · simp [hts, hrest, hmore]
    · exact .more harg hcomma hnew
    · simpa using hes
  · refine .bind expectSymbol_taken.within fun closing rest' _ hclose => ?_
    obtain ⟨rfl, hclose⟩ := hclose
    exact .ok ⟨used, closing, [arg.marked .none], hts, .one harg, hclose, by simp⟩
termination_by 12 * ts.length + 12
decreasing_by
  all_goals
    have rank : Level.disjunction.rank = 5 := rfl
    omega

end

end Javelet.Grammar
