import Javelet.Proofs.Lowering.Renumbered
import Javelet.Proofs.Types.Collecting

/-!
# The order of declarations

A program may declare its types in any order. The table of its types and what is known of its
nodes are the same, and each type is lowered to the same section as before, only that the counter of
labels stands elsewhere when its turn comes. The renumbering of the labels is put together from
exchanges of two declarations that stand side by side.
-/
namespace Javelet.Lowering

open Assembly

/-! ## Renumberings -/

/-- Different numbers for different labels, and other numbers only for those from `first` up to
`next`. -/
structure Renumbers (ρ : Label → Label) (first next : Nat) : Prop where
  injective : Function.Injective ρ
  below : ∀ l, l < first → ρ l = l
  above : ∀ l, next ≤ l → ρ l = l

namespace Renumbers

variable {ρ σ : Label → Label} {first middle next : Nat}

theorem id (first next : Nat) : Renumbers id first next :=
  ⟨Function.injective_id, fun _ _ => rfl, fun _ _ => rfl⟩

theorem comp (hσ : Renumbers σ first next) (hρ : Renumbers ρ first next) :
    Renumbers (σ ∘ ρ) first next := by
  refine ⟨hσ.injective.comp hρ.injective, ?_, ?_⟩
  · intro l hl
    rw [Function.comp_apply, hρ.below l hl, hσ.below l hl]
  · intro l hl
    rw [Function.comp_apply, hρ.above l hl, hσ.above l hl]

theorem mono (h : Renumbers ρ middle next) (hle : first ≤ middle) : Renumbers ρ first next :=
  ⟨h.injective, fun l hl => h.below l (Nat.lt_of_lt_of_le hl hle), h.above⟩

theorem shifts_below (h : Renumbers ρ (first + middle) next) : Shifts ρ first first middle :=
  fun k hk => h.below (first + k) (Nat.add_lt_add_left hk first)

end Renumbers

/-- Exchange `n` labels from `first` on with the `m` labels behind them. -/
def exchange (first n m : Nat) (l : Label) : Label :=
  if first ≤ l ∧ l < first + n then l + m
  else if first + n ≤ l ∧ l < first + n + m then l - n
  else l

section Exchange

variable (first n m : Nat)

theorem exchange_left : Shifts (exchange first n m) first (first + m) n := by
  intro k hk
  rw [exchange, if_pos ⟨Nat.le_add_right .., Nat.add_lt_add_left hk first⟩]
  exact Nat.add_right_comm ..

theorem exchange_right : Shifts (exchange first n m) (first + n) first m := by
  intro k hk
  have hleft : ¬ (first ≤ first + n + k ∧ first + n + k < first + n) := by omega
  rw [exchange, if_neg hleft, if_pos ⟨Nat.le_add_right .., Nat.add_lt_add_left hk _⟩]
  rw [Nat.add_right_comm]
  exact Nat.add_sub_cancel ..

theorem exchange_outside {l : Nat} (h : l < first ∨ first + n + m ≤ l) :
    exchange first n m l = l := by
  have hleft : ¬ (first ≤ l ∧ l < first + n) := by omega
  have hright : ¬ (first + n ≤ l ∧ l < first + n + m) := by omega
  rw [exchange, if_neg hleft, if_neg hright]

/-- Exchanging the labels back undoes the exchange. -/
theorem exchange_exchange (l : Nat) : exchange first m n (exchange first n m l) = l := by
  by_cases hout : l < first ∨ first + n + m ≤ l
  · rw [exchange_outside first n m hout]
    exact exchange_outside first m n (by omega)
  · obtain ⟨k, rfl⟩ : ∃ k, l = first + k := Nat.exists_eq_add_of_le (by omega)
    by_cases hk : k < n
    · rw [exchange_left first n m k hk]
      exact exchange_right first m n k hk
    · obtain ⟨j, rfl⟩ : ∃ j, k = n + j := Nat.exists_eq_add_of_le (by omega)
      rw [← Nat.add_assoc, exchange_right first n m j (by omega)]
      exact exchange_left first m n j (by omega)

theorem renumbers_exchange {next : Nat} (hnext : first + n + m ≤ next) :
    Renumbers (exchange first n m) first next :=
  ⟨Function.LeftInverse.injective (exchange_exchange first n m),
    fun _ hl => exchange_outside first n m (.inl hl),
    fun _ hl => exchange_outside first n m (.inr (Nat.le_trans hnext hl))⟩

end Exchange

/-! ## Sections in another order -/

/-- Sections that are the same but for the numbers of labels, each for its declaration. -/
def Matching (ρ : Label → Label) (ds ds' : List TypeDecl) (sections sections' : List Section) :
    Prop :=
  (ds.zip (sections.map (Section.relabel ρ))).Perm (ds'.zip sections')

theorem Matching.trans {ρ σ : Label → Label} {ds ds' ds'' : List TypeDecl}
    {sections sections' sections'' : List Section} (h : Matching ρ ds ds' sections sections')
    (h' : Matching σ ds' ds'' sections' sections'') :
    Matching (σ ∘ ρ) ds ds'' sections sections'' := by
  have hboth := h.map (Prod.map id (Section.relabel σ))
  rw [← List.zip_map_right, ← List.zip_map_right, List.map_map] at hboth
  have hrelabel : Section.relabel σ ∘ Section.relabel ρ = Section.relabel (σ ∘ ρ) :=
    funext (Section.relabel_relabel ρ σ)
  rw [hrelabel] at hboth
  exact List.Perm.trans hboth h'

/-- Declarations that are lowered in another order. -/
theorem exists_matching {g : TypeDecl → Lower Section}
    (hg : ∀ ρ d, Mirrors ρ (Section.relabel ρ) (g d) (g d)) {ds ds' : List TypeDecl}
    (hp : ds.Perm ds') {first next : Nat} {sections : List Section}
    (h : Yields (ds.mapM g) first sections next) :
    ∃ ρ sections', Renumbers ρ first next ∧ Yields (ds'.mapM g) first sections' next ∧
      Matching ρ ds ds' sections sections' := by
  induction hp generalizing first next sections with
  | nil =>
    obtain ⟨rfl, rfl⟩ := yields_mapM_nil.1 h
    exact ⟨id, [], .id _ _, yields_mapM_nil.2 ⟨rfl, rfl⟩, .nil⟩
  | cons d _ ih =>
    obtain ⟨s, rest, middle, hs, hrest, rfl⟩ := yields_mapM_cons.1 h
    obtain ⟨ρ, rest', hρ, hrest', hmatching⟩ := ih hrest
    obtain ⟨n, rfl, hs'⟩ := hg ρ d first s middle hs
    exact ⟨ρ, s.relabel ρ :: rest', hρ.mono (Nat.le_add_right ..),
      yields_mapM_cons.2 ⟨_, _, _, hs' first hρ.shifts_below, hrest', rfl⟩, hmatching.cons _⟩
  | swap d d' ds =>
    obtain ⟨s', tail, middle', hs', htail, rfl⟩ := yields_mapM_cons.1 h
    obtain ⟨s, rest, middle, hs, hrest, rfl⟩ := yields_mapM_cons.1 htail
    obtain ⟨n, rfl, -⟩ := hg id d' first s' middle' hs'
    obtain ⟨m, rfl, -⟩ := hg id d (first + n) s middle hs
    obtain ⟨k, rfl, -⟩ := Mirrors.mapM (fun e _ => hg id e) _ rest next hrest
    have hρ : Renumbers (exchange first n m) first (first + n + m + k) :=
      renumbers_exchange first n m (Nat.le_add_right ..)
    have hstay : Shifts (exchange first n m) (first + n + m) (first + n + m) k :=
      fun j _ => exchange_outside first n m (.inr (Nat.le_add_right ..))
    have hsecond := (hg (exchange first n m) d).yields hs (exchange_right first n m)
    have hfirst := (hg (exchange first n m) d').yields hs' (exchange_left first n m)
    have hothers := (Mirrors.mapM fun e _ => hg (exchange first n m) e).yields hrest hstay
    have hmiddle := Nat.add_right_comm first n m
    have htail := yields_mapM_cons.2 ⟨_, _, _, hmiddle ▸ hfirst, hothers, rfl⟩
    exact ⟨_, _, hρ, yields_mapM_cons.2 ⟨_, _, _, hsecond, htail, rfl⟩, .swap ..⟩
  | trans _ _ ih ih' =>
    obtain ⟨ρ, middles, hρ, hmiddles, hmatching⟩ := ih h
    obtain ⟨σ, sections', hσ, hsections', hmatching'⟩ := ih' hmiddles
    exact ⟨σ ∘ ρ, sections', hσ.comp hρ, hsections', hmatching.trans hmatching'⟩

/-! ## Programs in another order -/

section Programs

variable {p q : Program} {t t' : Types.Table} (hp : p.declarations.Perm q.declarations)
  (ht : t.Same t') (hn : p.nodes.Nodup)

include hp ht hn

/-- Outside of all declarations the surroundings of a declaration are the same in every order. -/
theorem alike_outermost {d : TypeDecl} (hd : d ∈ p.declarations) (ρ : Label → Label) :
    (Env.outermost t (Scope.resolve p t).arena).Alike ρ d.nodes
      (.outermost t' (Scope.resolve q t').arena) :=
  ⟨⟨ht, rfl, funext fun name => Scope.lookup_root_resolve hp ht hn name⟩,
    fun _ hmem => Scope.alike_resolve hp ht hn hd hmem, rfl⟩

theorem exists_program_matching {sections : List Section}
    (h : program t (Scope.resolve p t).arena p = .ok sections) :
    ∃ ρ sections', Function.Injective ρ ∧
      program t' (Scope.resolve q t').arena q = .ok sections' ∧
      Matching ρ p.declarations q.declarations sections sections' := by
  obtain ⟨next, hy⟩ := yields_program h
  -- first the declarations in their own order, then the same declarations in the other one
  obtain ⟨n, rfl, hother⟩ := Mirrors.mapM (fun d hd => typeDecl_mirrors
    (alike_outermost hp ht hn hd id)) 0 sections next hy
  have hself : ∀ ρ d, Mirrors ρ (Section.relabel ρ)
      (typeDecl (.outermost t' (Scope.resolve q t').arena) d)
      (typeDecl (.outermost t' (Scope.resolve q t').arena) d) :=
    fun ρ d => typeDecl_mirrors ⟨⟨.refl t', rfl, rfl⟩, fun _ _ => ⟨rfl, rfl, rfl⟩, rfl⟩
  obtain ⟨ρ, sections', hρ, hsections', hmatching⟩ := exists_matching hself hp
    (hother 0 fun _ _ => rfl)
  exact ⟨ρ, sections', hρ.injective, program_of_yields hsections',
    Matching.trans (ρ := id) (.refl _) hmatching⟩

end Programs

end Javelet.Lowering

namespace Javelet

open Assembly

/-- Two programs are told apart at most by the order of their faults, by the order of their sections
and by the numbers of labels. -/
structure Program.Interchangeable (p q : Program) : Prop where
  table : ∀ name, (Types.collect p).table.find? name = (Types.collect q).table.find? name
  typeFaults : (Types.collect p).faults.toList.Perm (Types.collect q).faults.toList
  nameFaults : (Scope.resolve p (Types.collect p).table).faults.toList.Perm
    (Scope.resolve q (Types.collect q).table).faults.toList
  /-- Each declaration keeps its section, and the code in it is written with the same depth of the
  stack and line by line as before. -/
  code : ∀ sections,
    Lowering.program (Types.collect p).table (Scope.resolve p (Types.collect p).table).arena p =
      .ok sections →
    ∃ sections' ρ,
      Lowering.program (Types.collect q).table (Scope.resolve q (Types.collect q).table).arena q =
        .ok sections' ∧
      Function.Injective ρ ∧
      sections.length = p.declarations.length ∧ sections'.length = q.declarations.length ∧
      (p.declarations.zip (sections.map (Section.relabel ρ))).Perm (q.declarations.zip sections') ∧
      ∀ c, .class_ c ∈ sections → ∀ m ∈ c.methods,
        listing (m.relabel ρ).code = (listing m.code).relabel ρ

/-- The types of a program may be declared in any order. -/
theorem interchangeable_of_perm {p q : Program} (hp : p.declarations.Perm q.declarations)
    (hnames : (p.declarations.map TypeDecl.name).Nodup) (hnodes : p.nodes.Nodup) :
    p.Interchangeable q := by
  obtain ⟨htable, hfaults⟩ := Types.collect_alike hp hnames
  refine ⟨htable, hfaults, Scope.faults_resolve_perm hp htable hnodes, ?_⟩
  intro sections h
  obtain ⟨ρ, sections', hρ, h', hmatching⟩ :=
    Lowering.exists_program_matching hp htable hnodes h
  obtain ⟨_, hy⟩ := Lowering.yields_program h
  obtain ⟨_, hy'⟩ := Lowering.yields_program h'
  exact ⟨sections', ρ, h', hρ, Lowering.length_of_yields_mapM hy,
    Lowering.length_of_yields_mapM hy', hmatching, fun _ _ m _ => listing_relabel ρ m.code⟩

/-- A class that extends the class behind it and is mentioned there, both with labels. -/
def mutualClasses : Program :=
  match parseSource ("class A extends B { boolean f(int n) { return n < 1; } } " ++
    "class B { boolean g(A a) { while (a.f(2)) { } return true; } }") with
  | .ok p => p
  | .error _ => ⟨[]⟩

theorem mutualClasses_interchangeable :
    mutualClasses.declarations.map TypeDecl.name = ["A", "B"] ∧ mutualClasses.nodes.Nodup ∧
    (∃ sections, Lowering.program (Types.collect mutualClasses).table
      (Scope.resolve mutualClasses (Types.collect mutualClasses).table).arena mutualClasses =
        .ok sections) ∧
    mutualClasses.Interchangeable ⟨mutualClasses.declarations.reverse⟩ := by
  -- one evaluation for the three facts, since each of them parses the text
  obtain ⟨hnames, hnodes, hok⟩ : mutualClasses.declarations.map TypeDecl.name = ["A", "B"] ∧
      mutualClasses.nodes.Nodup ∧ (Lowering.program (Types.collect mutualClasses).table
        (Scope.resolve mutualClasses (Types.collect mutualClasses).table).arena
        mutualClasses).isOk = true := by decide +kernel
  refine ⟨hnames, hnodes, ?_, interchangeable_of_perm (List.reverse_perm _).symm
    (hnames ▸ by decide) hnodes⟩
  cases h : Lowering.program (Types.collect mutualClasses).table
      (Scope.resolve mutualClasses (Types.collect mutualClasses).table).arena mutualClasses with
  | error fault =>
    rw [h] at hok
    cases hok
  | ok sections => exact ⟨sections, rfl⟩

end Javelet
