import Javelet.Grammar.Declaration
import Javelet.Proofs.Grammar.Numbers
import Javelet.Proofs.Grammar.Statements

/-!
# What readers of declarations give

A program that is read from tokens with plain names is well-named.
-/
namespace Javelet.Grammar

variable {ts : List Token} {finish : Position}

theorem returnType_gives (hts : NamesPlain ts) :
    Gives (returnType finish ts) fun t rest =>
      (t.isVoid = false → t.IsValue) ∧ NamesPlain rest := by
  unfold returnType
  split
  · rename_i t rest h hp
    exact .ok ⟨fun h => (by cases h), namesPlain_accept hts hp⟩
  · intro p hp
    obtain ⟨ht, hrest⟩ := type_gives hts p hp
    exact ⟨fun _ => ht, hrest⟩

theorem moreParameters_gives (finish : Position) (bound : Nat) (done : List Parameter)
    (ts : List Token) (h : ts.length < bound) (hdone : ∀ p ∈ done, p.type.IsValue)
    (hts : NamesPlain ts) : Gives (moreParameters finish bound done ts h) fun ps rest =>
      (∀ p ∈ ps, p.type.IsValue) ∧ NamesPlain rest := by
  rw [moreParameters]
  refine .bind (type_gives hts) fun t rest h' ht => ?_
  refine .bind (expectName_gives ht.2).within fun name rest1 h1 hname => ?_
  have hall : ∀ p ∈ ⟨here finish ts, t, name⟩ :: done, p.type.IsValue :=
    List.forall_mem_cons.2 ⟨ht.1, hdone⟩
  dsimp only
  split
  · rename_i u rest2 h2 hp
    obtain ⟨q, hq, he⟩ := Option.map_eq_some_iff.1 hp
    cases he
    exact moreParameters_gives finish bound _ _ _ hall (namesPlain_accept hname.2 hq)
  · refine .bind (expectSymbol_gives hname.2).within fun _ rest2 h2 hrest => ?_
    refine .ok ⟨?_, hrest⟩
    intro p hp
    exact hall p (List.mem_reverse.1 hp)
termination_by ts.length
decreasing_by omega

theorem parameters_gives (hts : NamesPlain ts) : Gives (parameters finish ts) fun ps rest =>
    (∀ p ∈ ps, p.type.IsValue) ∧ NamesPlain rest := by
  unfold parameters
  refine .bind (expectSymbol_gives hts) fun _ rest h hrest => ?_
  dsimp only
  split
  · rename_i t rest' h' hp
    exact .ok ⟨List.forall_mem_nil _, namesPlain_accept hrest hp⟩
  · exact moreParameters_gives finish ts.length [] rest h (List.forall_mem_nil _) hrest

abbrev ReadsMethod := Reads Method.WellNamed

theorem methodRest_gives {header : Signature} (hname : PlainName header.name)
    (hts : NamesPlain ts) : Gives (methodRest finish header ts) ReadsMethod := by
  unfold methodRest
  refine .bind (parameters_gives hts) fun ps rest h hps => ?_
  refine .bind (block_gives finish .none (header.id + 1) rest hps.2).within ?_
  rintro ⟨body, next⟩ rest' h' hbody
  exact .ok ⟨⟨⟨hname, hps.1⟩, hbody.named⟩, hbody.rest⟩

theorem mainMethod_gives {p : Position} {access : Option Access} {id : NodeId}
    (hts : NamesPlain ts) : Gives (mainMethod finish p access id ts) ReadsMethod := by
  unfold mainMethod
  dsimp only
  split
  · exact .error_bind
  · split
    · exact .error
    · rename_i t rest h hp
      split
      · exact .error
      · rename_i u rest1 h1 hp1
        have hrest1 := namesPlain_accept (namesPlain_accept hts hp) hp1
        refine .bind (parameters_gives hrest1).within fun ps rest2 h2 hps => ?_
        dsimp only
        split
        · exact .error_bind
        · refine .bind (block_gives finish .none (id + 1) rest2 hps.2).within ?_
          rintro ⟨body, next⟩ rest3 h3 hbody
          have hmain : PlainName "main" := ⟨by decide, by decide⟩
          exact .ok ⟨⟨⟨hmain, hps.1⟩, hbody.named⟩, hbody.rest⟩

/-! ## Classes -/

structure Members.WellNamed (m : Members) : Prop where
  properties : ∀ p ∈ m.properties, p.WellNamed
  methods : ∀ m' ∈ m.constructors ++ m.methods ++ m.main.toList, m'.WellNamed

abbrev ReadsMembers := Reads Members.WellNamed

/-- One more method, constructor or entry point. -/
theorem Members.WellNamed.method {done next : Members} {m : Method} (hdone : done.WellNamed)
    (hproperties : next.properties = done.properties)
    (hmethods : (next.constructors ++ next.methods ++ next.main.toList).Perm
      (m :: (done.constructors ++ done.methods ++ done.main.toList)))
    (hm : m.WellNamed) : next.WellNamed := by
  refine ⟨hproperties ▸ hdone.properties, fun m' hm' => ?_⟩
  rcases List.mem_cons.1 (hmethods.mem_iff.1 hm') with rfl | hm'
  · exact hm
  · exact hdone.methods m' hm'

theorem initialValue_gives (hts : NamesPlain ts) : Gives (initialValue finish ts) fun value rest =>
    (∀ e ∈ value, e.WellNamed) ∧ NamesPlain rest := by
  unfold initialValue
  split
  · rename_i t rest h hp
    refine .bind (expression_gives (namesPlain_accept hts hp)).within fun e rest1 h1 he => ?_
    exact .ok ⟨by simpa using he.1, he.2⟩
  · exact .ok ⟨by simp, hts⟩

theorem typedMember_gives {p : Position} {access : Access} {done : Members} {id : NodeId}
    (hdone : done.WellNamed) (hts : NamesPlain ts) :
    Gives (typedMember finish p access done id ts) ReadsMembers := by
  unfold typedMember
  refine .bind (returnType_gives hts) fun t rest h ht => ?_
  refine .bind (expectName_gives ht.2).within fun name rest1 h1 hname => ?_
  dsimp only
  split
  · refine .bind (methodRest_gives hname.1.toPlainName hname.2).within ?_
    rintro ⟨m, middle⟩ rest2 h2 hm
    exact .ok ⟨hdone.method rfl (by simp [List.perm_middle]) hm.named, hm.rest⟩
  · split
    · exact .error
    · rename_i hvoid
      refine .bind (initialValue_gives hname.2).optionalWithin fun value rest2 h2 hvalue => ?_
      refine .bind (expectSymbol_gives hvalue.2).within fun _ rest3 h3 hrest => ?_
      have htype := ht.1 (by simpa using hvoid)
      refine .ok ⟨⟨List.forall_mem_cons.2 ⟨?_, hdone.properties⟩, hdone.methods⟩, hrest⟩
      exact ⟨hname.1.toPlainName, htype, hvalue.1⟩

theorem constructorMember_gives {p : Position} {className : String} {access : Access}
    {done : Members} {id : NodeId} (hclass : PlainName className) (hdone : done.WellNamed)
    (hts : NamesPlain ts) :
    Gives (constructorMember finish p className access done id ts) ReadsMembers := by
  unfold constructorMember
  refine .bind (expectName_gives hts) fun _ rest h hrest => ?_
  refine .bind (methodRest_gives hclass hrest.2).within ?_
  rintro ⟨m, middle⟩ rest1 h1 hm
  exact .ok ⟨hdone.method rfl (by simp) hm.named, hm.rest⟩

theorem member_gives {className : String} {done : Members} {id : NodeId}
    (hclass : PlainName className) (hdone : done.WellNamed) (hts : NamesPlain ts) :
    Gives (member finish className done id ts) ReadsMembers := by
  have hrest : NamesPlain (accessModifier ts).rest := by
    unfold accessModifier
    split
    · rename_i p hp
      exact namesPlain_accept hts hp
    · exact hts
  unfold member
  dsimp only
  split
  · rename_i t more h hp
    refine .bind (mainMethod_gives (namesPlain_accept hrest hp)).within.behind ?_
    rintro ⟨m, middle⟩ rest1 h1 hm
    dsimp only
    split
    · exact .error_bind
    · rename_i hnone
      have hmain : done.main = none := by simpa using hnone
      refine .ok ⟨hdone.method rfl ?_ hm.named, hm.rest⟩
      rw [hmain, Option.toList_none, List.append_nil]
      exact List.perm_append_singleton ..
  · split
    · exact (constructorMember_gives hclass hdone hrest).behind
    · exact (typedMember_gives hdone hrest).behind

theorem members_gives (finish : Position) (className : String) (bound : Nat) (done : Members)
    (id : NodeId) (ts : List Token) (h : ts.length < bound) (hclass : PlainName className)
    (hdone : done.WellNamed) (hts : NamesPlain ts) :
    Gives (members finish className bound done id ts h) ReadsMembers := by
  rw [members]
  split
  · rename_i t rest h' hp
    exact .ok ⟨hdone, namesPlain_accept hts hp⟩
  · split
    · exact .error
    · refine .bind (member_gives hclass hdone hts) ?_
      rintro ⟨next, middle⟩ rest h' hnext
      exact members_gives finish className bound next middle rest (shorter_bound h' h) hclass
        hnext.named hnext.rest
termination_by ts.length
decreasing_by omega

theorem supertype_gives {word what : String} (hts : NamesPlain ts) :
    Gives (supertype finish word what ts) fun _ rest => NamesPlain rest := by
  unfold supertype
  split
  · rename_i t rest h hp
    refine .bind (typeName_gives (namesPlain_accept hts hp)).within fun _ _ _ hname => ?_
    exact .ok hname.2
  · exact .ok hts

abbrev ReadsClass := Reads ClassDecl.WellNamed

theorem classRest_gives {p : Position} {id : NodeId} (hts : NamesPlain ts) :
    Gives (classRest finish p id ts) ReadsClass := by
  unfold classRest
  refine .bind (expectName_gives hts) fun name rest h hname => ?_
  refine .bind (supertype_gives hname.2).optionalWithin fun superclass rest1 h1 hrest1 => ?_
  refine .bind (supertype_gives hrest1).optionalWithin fun interface rest2 h2 hrest2 => ?_
  refine .bind (expectSymbol_gives hrest2).within fun _ rest3 h3 hrest3 => ?_
  refine .bind (members_gives finish name ts.length ⟨[], [], [], none⟩ (id + 1) rest3 h3
    hname.1.toPlainName ⟨List.forall_mem_nil _, List.forall_mem_nil _⟩ hrest3) ?_
  rintro ⟨found, next⟩ rest4 h4 hfound
  have hmethods : (found.constructors.reverse ++ found.methods.reverse ++ found.main.toList).Perm
      (found.constructors ++ found.methods ++ found.main.toList) :=
    ((List.reverse_perm _).append (List.reverse_perm _)).append_right _
  refine .ok ⟨⟨hname.1, ?_, ?_⟩, hfound.rest⟩
  · intro p hp
    exact hfound.named.properties p (List.mem_reverse.1 hp)
  · intro m hm
    exact hfound.named.methods m (hmethods.mem_iff.1 hm)

/-! ## Interfaces -/

abbrev ReadsInterface := Reads InterfaceDecl.WellNamed

/-- What a reader of method headers gives behind those it has read. -/
def ReadsHeaders (done : List Signature) (r : List Signature × NodeId) (rest : List Token) : Prop :=
  ∃ new, r.1 = done.reverse ++ new ∧
    Reads (fun hs => ∀ s ∈ hs, Signature.WellNamed s) (new, r.2) rest

theorem interfaceMethods_gives (finish : Position) (bound : Nat) (done : List Signature)
    (id : NodeId) (ts : List Token) (h : ts.length < bound) (hts : NamesPlain ts) :
    Gives (interfaceMethods finish bound done id ts h) (ReadsHeaders done) := by
  rw [interfaceMethods]
  split
  · rename_i t rest h' hp
    exact .ok ⟨[], by simp, List.forall_mem_nil _, namesPlain_accept hts hp⟩
  · have hrest : NamesPlain (accessModifier ts).rest := by
      unfold accessModifier
      split
      · rename_i p hp
        exact namesPlain_accept hts hp
      · exact hts
    dsimp only
    refine .bind (returnType_gives hrest).behind fun t rest h' ht => ?_
    refine .bind (expectName_gives ht.2).within fun name rest1 h1 hname => ?_
    refine .bind (parameters_gives hname.2).within fun ps rest2 h2 hps => ?_
    refine .bind (expectSymbol_gives hps.2).within fun _ rest3 h3 hrest3 => ?_
    intro p hp
    dsimp only at hp
    obtain ⟨new, hnew, hr⟩ := interfaceMethods_gives finish bound _ (id + 1) rest3 _ hrest3 p hp
    refine ⟨_ :: new, by simpa using hnew, ?_, hr.rest⟩
    exact List.forall_mem_cons.2 ⟨⟨hname.1.toPlainName, hps.1⟩, hr.named⟩
termination_by ts.length
decreasing_by omega

theorem interfaceRest_gives {p : Position} {id : NodeId} (hts : NamesPlain ts) :
    Gives (interfaceRest finish p id ts) ReadsInterface := by
  unfold interfaceRest
  refine .bind (expectName_gives hts) fun name rest h hname => ?_
  refine .bind (expectSymbol_gives hname.2).within fun _ rest1 h1 hrest1 => ?_
  refine .bind (interfaceMethods_gives finish ts.length [] (id + 1) rest1 h1 hrest1) ?_
  rintro ⟨methods, next⟩ rest2 h2 ⟨new, hmethods, hnew⟩
  cases hmethods
  exact .ok ⟨⟨hname.1, hnew.named⟩, hnew.rest⟩

/-! ## Programs -/

abbrev ReadsType := Reads TypeDecl.WellNamed

theorem typeDeclarationRest_gives {p : Position} {id : NodeId} (hts : NamesPlain ts) :
    Gives (typeDeclarationRest finish p id ts) ReadsType := by
  unfold typeDeclarationRest
  split
  · rename_i t rest h hp
    refine .bind (classRest_gives (namesPlain_accept hts hp)).within ?_
    rintro ⟨d, next⟩ _ _ hd
    exact .ok ⟨hd.named, hd.rest⟩
  · split
    · rename_i t rest h hp
      refine .bind (interfaceRest_gives (namesPlain_accept hts hp)).within ?_
      rintro ⟨d, next⟩ _ _ hd
      exact .ok ⟨hd.named, hd.rest⟩
    · exact .error

theorem typeDeclaration_gives {id : NodeId} (hts : NamesPlain ts) :
    Gives (typeDeclaration finish id ts) ReadsType := by
  unfold typeDeclaration
  dsimp only
  split
  · rename_i t rest h hp
    exact (typeDeclarationRest_gives (namesPlain_accept hts hp)).within
  · exact typeDeclarationRest_gives hts

theorem declarations_eq_ok {ts : List Token} {done : List TypeDecl} {id next : NodeId}
    {program : Program} (hts : NamesPlain ts) (h : declarations finish done id ts = .ok (program, next)) :
    ∃ new, program.declarations = done.reverse ++ new ∧ ∀ d ∈ new, d.WellNamed := by
  rw [declarations] at h
  split at h
  · cases h
    exact ⟨[], by simp, List.forall_mem_nil _⟩
  · cases hdecl : typeDeclaration finish id ts with
    | error fault =>
      rw [hdecl] at h
      cases h
    | ok p =>
      rw [hdecl] at h
      have hread := typeDeclaration_gives hts p hdecl
      have hlt := p.shorter
      obtain ⟨new, hnew, hnamed⟩ := declarations_eq_ok hread.rest h
      exact ⟨p.value.1 :: new, by simp [hnew], List.forall_mem_cons.2 ⟨hread.named, hnamed⟩⟩
termination_by ts.length

end Javelet.Grammar

namespace Javelet

/-- A program that is read from a source text is well-named, and its nodes have different
numbers. -/
theorem parse_eq_ok {ts : List Token} {program : Program} (hts : NamesPlain ts)
    (h : parse ts = .ok program) : program.WellNamed ∧ program.nodes.Nodup := by
  obtain ⟨k, hk, hnumbered, -⟩ := exists_draws h
  obtain ⟨new, hnew, hnamed⟩ := Grammar.declarations_eq_ok hts hk
  refine ⟨?_, hnumbered.nodup⟩
  rw [Program.WellNamed, hnew]
  exact hnamed

end Javelet
