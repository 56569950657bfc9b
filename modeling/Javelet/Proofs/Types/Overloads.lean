import Javelet.Proofs.Types.Assignability
import Javelet.Proofs.Types.Members

/-!
# The choice between overloads

The methods that are visible on a type are told by its ancestors: an ancestor offers a method, and
no nearer one offers a method with the same parameters. A table keeps the methods of a type under
their keys, so no type offers two methods with the same parameters. Under names that can be written,
keys are the same exactly if the names and the parameters are. So the choice by the key is the
choice of a method with the types of the arguments as parameters, and where there is none, a method
is chosen as long as one takes the arguments. The constructors of a class are chosen from in the same
way.
-/
namespace Javelet.Types

/-! ## Methods under their keys -/

/-- The methods are kept in the order of their keys. -/
structure TypeInfo.Filed (info : TypeInfo) : Prop where
  sorted : Dictionary.Sorted info.methods.entries
  keys : ∀ e ∈ info.methods.entries, e.1 = e.2.signature

namespace TypeInfo.Filed

variable {info : TypeInfo}

theorem of_methods_eq {info' : TypeInfo} (h : info.Filed) (heq : info'.methods = info.methods) :
    info'.Filed :=
  ⟨heq ▸ h.sorted, heq ▸ h.keys⟩

theorem bare (name : String) (category : Category) : (TypeInfo.bare name category).Filed :=
  ⟨.nil, List.forall_mem_nil _⟩

theorem putMethod (h : info.Filed) (m : MethodInfo) : (info.putMethod m).Filed := by
  refine ⟨Dictionary.sorted_place h.sorted _ _, fun e he => ?_⟩
  rcases Dictionary.mem_place he with rfl | he
  · rfl
  · exact h.keys e he

theorem putMethods (h : info.Filed) (headers : List Signature) :
    (info.putMethods headers).Filed := by
  induction headers generalizing info with
  | nil => exact h
  | cons s headers ih => exact ih (h.putMethod _)

theorem declaredClass (d : ClassDecl) : (TypeInfo.declaredClass d).Filed := by
  refine putMethods (of_methods_eq (.bare d.name .class_) ?_) d.headers
  rw [putProperties_eq]
  rfl

theorem ofDecl (d : TypeDecl) : (TypeInfo.ofDecl d).Filed := by
  cases d with
  | class_ d =>
    unfold TypeInfo.ofDecl TypeInfo.ofClass
    dsimp only
    split
    · exact declaredClass d
    · exact (declaredClass d).putMethod _
  | interface d => exact (bare d.name .interface).putMethods d.methods

/-- No two methods have the same key. -/
theorem nodup_signatures (h : info.Filed) :
    (info.methods.values.map MethodInfo.signature).Nodup := by
  refine List.pairwise_map.2 (List.pairwise_map.2 (h.sorted.imp_of_mem fun he he' hlt heq => ?_))
  rw [h.keys _ he, h.keys _ he', heq] at hlt
  exact lt_irrefl _ hlt

end TypeInfo.Filed

/-! ## Visible methods -/

/-- A type offers a method to the calls of a name. -/
structure TypeInfo.Offers (owner : TypeInfo) (name : String) (m : MethodInfo) : Prop where
  method : m ∈ owner.methods.values
  name : m.name = name
  isConstructor : m.isConstructor = false

namespace Table

variable {t : Table} {name type : String}

/-- On a type a method is visible that an ancestor offers, if no nearer ancestor offers one of the
same name and with the same parameters. -/
def Visible (t : Table) (type name : String) (owner : TypeInfo) (m : MethodInfo) : Prop :=
  owner.Offers name m ∧ ∃ nearer farther, t.ancestors type = nearer ++ owner :: farther ∧
    ∀ o ∈ nearer, ∀ m', o.Offers name m' → m'.params ≠ m.params

/-- What an owner adds to the methods that were found: methods of the name with new keys, so that
behind it there is one for each of its keys. -/
structure Added (name : String) (owner : TypeInfo) (offered : List MethodInfo)
    (found found' : List (TypeInfo × MethodInfo)) : Prop where
  keeps : ∀ f ∈ found, f ∈ found'
  sound : ∀ f ∈ found', f ∈ found ∨ f.1 = owner ∧ owner.Offers name f.2 ∧
    ∀ g ∈ found, g.2.signature ≠ f.2.signature
  complete : ∀ m ∈ offered, owner.Offers name m → ∃ f ∈ found', f.2.signature = m.signature

/-- One more method is added if it is one of the name and its key is new. -/
theorem Added.concat {owner : TypeInfo} {offered : List MethodInfo} {last : MethodInfo}
    {found found' : List (TypeInfo × MethodInfo)} (h : Added name owner offered found found')
    (hlast : last ∈ owner.methods.values) :
    Added name owner (offered ++ [last]) found
      (if last.name = name ∧ last.isConstructor = false ∧
          found'.all (fun f => f.2.signature != last.signature) = true then found' ++ [(owner, last)]
        else found') := by
  obtain ⟨hkeeps, hsound, hcomplete⟩ := h
  split
  · rename_i hnew
    obtain ⟨hname, hconstructor, hkeys⟩ := hnew
    refine ⟨fun f hf => List.mem_append_left _ (hkeeps f hf), fun f hf => ?_, fun m hm hoffers => ?_⟩
    · rcases List.mem_append.1 hf with hf | hf
      · exact hsound f hf
      · cases List.mem_singleton.1 hf
        refine .inr ⟨rfl, ⟨hlast, hname, hconstructor⟩, fun g hg => ?_⟩
        exact bne_iff_ne.1 (List.all_eq_true.1 hkeys g (hkeeps g hg))
    · rcases List.mem_append.1 hm with hm | hm
      · obtain ⟨f, hf, hkey⟩ := hcomplete m hm hoffers
        exact ⟨f, List.mem_append_left _ hf, hkey⟩
      · cases List.mem_singleton.1 hm
        exact ⟨_, List.mem_append_right _ (List.mem_singleton_self _), rfl⟩
  · rename_i hold
    refine ⟨hkeeps, hsound, fun m hm hoffers => ?_⟩
    rcases List.mem_append.1 hm with hm | hm
    · exact hcomplete m hm hoffers
    · cases List.mem_singleton.1 hm
      by_contra hnone
      refine hold ⟨hoffers.name, hoffers.isConstructor, List.all_eq_true.2 fun f hf => ?_⟩
      exact bne_iff_ne.2 fun hkey => hnone ⟨f, hf, hkey⟩

theorem added_addMethods (name : String) (found : List (TypeInfo × MethodInfo))
    (owner : TypeInfo) :
    Added name owner owner.methods.values found (addMethods name found owner) := by
  rw [addMethods]
  generalize hoffered : owner.methods.values = offered
  have hall : ∀ m ∈ offered, m ∈ owner.methods.values := fun _ hm => hoffered ▸ hm
  clear hoffered
  induction offered using List.reverseRecOn with
  | nil => exact ⟨fun _ hf => hf, fun _ hf => .inl hf, List.forall_mem_nil _⟩
  | append_singleton offered last ih =>
    rw [List.foldl_concat]
    exact (ih fun m hm => hall m (List.mem_append_left _ hm)).concat
      (hall last (List.mem_append_right _ (List.mem_singleton_self last)))

/-- Along owners, nearest first, one method is found for each key that they offer, and it is offered by
the nearest one of them. -/
theorem found_foldl_addMethods (name : String) (owners : List TypeInfo) :
    (∀ f ∈ owners.foldl (addMethods name) [], f.1.Offers name f.2 ∧
      ∃ nearer farther, owners = nearer ++ f.1 :: farther ∧
        ∀ o ∈ nearer, ∀ m, o.Offers name m → m.signature ≠ f.2.signature) ∧
      ∀ o ∈ owners, ∀ m, o.Offers name m →
        ∃ f ∈ owners.foldl (addMethods name) [], f.2.signature = m.signature := by
  induction owners using List.reverseRecOn with
  | nil => exact ⟨List.forall_mem_nil _, List.forall_mem_nil _⟩
  | append_singleton owners last ih =>
    obtain ⟨hsound, hcomplete⟩ := ih
    obtain ⟨hkeeps, hadded, hlast⟩ :=
      added_addMethods name (owners.foldl (addMethods name) []) last
    rw [List.foldl_concat]
    constructor
    · intro f hf
      rcases hadded f hf with hf | ⟨rfl, hoffers, hkeys⟩
      · obtain ⟨hoffers, nearer, farther, rfl, hnearer⟩ := hsound f hf
        exact ⟨hoffers, nearer, farther ++ [last], by simp, hnearer⟩
      · refine ⟨hoffers, owners, [], rfl, fun o ho m hm hkey => ?_⟩
        obtain ⟨g, hg, hgkey⟩ := hcomplete o ho m hm
        exact hkeys g hg (hgkey.trans hkey)
    · intro o ho m hm
      rcases List.mem_append.1 ho with ho | ho
      · obtain ⟨f, hf, hkey⟩ := hcomplete o ho m hm
        exact ⟨f, hkeeps f hf, hkey⟩
      · cases List.mem_singleton.1 ho
        exact hlast m hm.method hm

/-- The nearest owner that fits is the one that a search from the near end finds. -/
theorem find?_of_nearest {owners nearer farther : List TypeInfo} {owner : TypeInfo}
    {Fits : TypeInfo → Prop} [DecidablePred Fits] (heq : owners = nearer ++ owner :: farther)
    (hfits : Fits owner) (hnearer : ∀ o ∈ nearer, ¬ Fits o) :
    owners.find? (fun o => Fits o) = some owner := by
  refine List.find?_eq_some_iff_append.2 ⟨decide_eq_true hfits, nearer, farther, heq, fun o ho => ?_⟩
  rw [Bool.not_eq_true', decide_eq_false_iff_not]
  exact hnearer o ho

/-- Along owners, nearest first, a method is found that one of them offers, if no nearer one offers
a method with the same key. -/
theorem mem_foldl_addMethods {owners : List TypeInfo} (howners : ∀ o ∈ owners, o.Filed)
    {f : TypeInfo × MethodInfo} : f ∈ owners.foldl (addMethods name) [] ↔
      f.1.Offers name f.2 ∧ ∃ nearer farther, owners = nearer ++ f.1 :: farther ∧
        ∀ o ∈ nearer, ∀ m', o.Offers name m' → m'.signature ≠ f.2.signature := by
  classical
  obtain ⟨hsound, hcomplete⟩ := found_foldl_addMethods name owners
  refine ⟨hsound f, ?_⟩
  rintro ⟨hoffers, nearer, farther, heq, hnearer⟩
  have howner : f.1 ∈ owners := heq ▸ List.mem_append_right _ List.mem_cons_self
  obtain ⟨g, hg, hkey⟩ := hcomplete f.1 howner f.2 hoffers
  obtain ⟨hoffers', nearer', farther', heq', hnearer'⟩ := hsound g hg
  -- both are offered by the nearest owner that has the key, and it has it once
  have hsame : g.1 = f.1 := by
    have hfind : owners.find? (fun o => ∃ m, o.Offers name m ∧ m.signature = f.2.signature) =
        some f.1 :=
      find?_of_nearest heq ⟨f.2, hoffers, rfl⟩ fun o ho ⟨m, hm, hm'⟩ => hnearer o ho m hm hm'
    refine Option.some.inj (Eq.trans ?_ hfind)
    exact (find?_of_nearest heq' ⟨g.2, hoffers', hkey⟩ fun o ho ⟨m, hm, hm'⟩ =>
      hnearer' o ho m hm (hm'.trans hkey.symm)).symm
  have hmethod : g.2 = f.2 := by
    refine List.inj_on_of_nodup_map (howners f.1 howner).nodup_signatures ?_ hoffers.method hkey
    exact hsame ▸ hoffers'.method
  exact Prod.ext hsame hmethod ▸ hg

/-- The visible methods are found, and no others. -/
theorem mem_methodsNamed (hfiled : ∀ o ∈ t.ancestors type, o.Filed)
    (hkeys : ∀ o ∈ t.ancestors type, ∀ o' ∈ t.ancestors type, ∀ m m', o.Offers name m →
      o'.Offers name m' → (m'.signature = m.signature ↔ m'.params = m.params))
    {f : TypeInfo × MethodInfo} : f ∈ t.methodsNamed type name ↔ t.Visible type name f.1 f.2 := by
  rw [methodsNamed, mem_foldl_addMethods hfiled]
  refine and_congr_right fun hoffers => exists_congr fun nearer => exists_congr fun farther =>
    and_congr_right fun heq => forall₄_congr fun o ho m' hm' => not_congr ?_
  have howner : f.1 ∈ t.ancestors type := heq ▸ List.mem_append_right _ List.mem_cons_self
  have hother : o ∈ t.ancestors type := heq ▸ List.mem_append_left _ ho
  exact hkeys _ howner _ hother _ _ hoffers hm'

/-! ## The choice -/

/-- The arguments are as many as the parameters, and each one may be stored in its parameter. -/
def Takes (t : Table) (params args : List Ty) : Prop :=
  List.Forall₂ (fun param arg => t.isAssignable arg param = true) params args

theorem accepts_iff {params args : List Ty} :
    t.accepts params args = true ↔ t.Takes params args := by
  rw [accepts, Takes, List.forall₂_iff_zip, Bool.and_eq_true, beq_iff_eq, List.all_eq_true]
  exact and_congr_right fun _ => ⟨fun h a b hab => h (a, b) hab, fun h ab hab => h hab⟩

theorem takes_self (args : List Ty) : t.Takes args args :=
  List.forall₂_same.2 fun a _ => by rw [isAssignable, if_pos rfl]

/-- A choice among candidates with parameters is right for arguments: a candidate is chosen that
takes them, one with exactly their types is preferred, and none is chosen only if none takes
them. -/
structure RightChoice (t : Table) (args : List Ty) {α : Type} (params : α → List Ty)
    (Candidate : α → Prop) (choice : Option α) : Prop where
  sound : ∀ c, choice = some c → Candidate c ∧ t.Takes (params c) args
  exact : ∀ c, Candidate c → params c = args → ∃ c', choice = some c' ∧ params c' = args
  none_iff : choice = none ↔ ∀ c, Candidate c → ¬ t.Takes (params c) args

/-- To look for a candidate with the types of the arguments first, and else for one that takes them,
is right. -/
theorem rightChoice_find? {α : Type} {params : α → List Ty} {args : List Ty} {candidates : List α}
    {same : α → Bool} (hsame : ∀ c ∈ candidates, same c = true ↔ params c = args) :
    t.RightChoice args params (· ∈ candidates)
      ((candidates.find? same).or (candidates.find? fun c => t.accepts (params c) args)) where
  sound c h := by
    rcases Option.or_eq_some_iff.1 h with h | ⟨-, h⟩
    · have hmem := List.mem_of_find?_eq_some h
      rw [(hsame c hmem).1 (List.find?_some h)]
      exact ⟨hmem, takes_self args⟩
    · have htakes := List.find?_some h
      exact ⟨List.mem_of_find?_eq_some h, accepts_iff.1 htakes⟩
  exact c hmem hparams := by
    have hsome : (candidates.find? same).isSome :=
      List.find?_isSome.2 ⟨c, hmem, (hsame c hmem).2 hparams⟩
    obtain ⟨c', hc'⟩ := Option.isSome_iff_exists.1 hsome
    refine ⟨c', by rw [hc', Option.some_or], ?_⟩
    exact (hsame c' (List.mem_of_find?_eq_some hc')).1 (List.find?_some hc')
  none_iff := by
    rw [Option.or_eq_none_iff, List.find?_eq_none, List.find?_eq_none]
    constructor
    · exact fun h c hmem htakes => h.2 c hmem (accepts_iff.2 htakes)
    · refine fun h => ⟨fun c hmem hc => ?_, fun c hmem hc => h c hmem (accepts_iff.1 hc)⟩
      exact h c hmem ((hsame c hmem).1 hc ▸ takes_self _)

theorem RightChoice.congr {α : Type} {params : α → List Ty} {args : List Ty}
    {Candidate Candidate' : α → Prop} {choice : Option α} (hsame : ∀ c, Candidate c ↔ Candidate' c)
    (h : t.RightChoice args params Candidate choice) :
    t.RightChoice args params Candidate' choice := by
  obtain rfl : Candidate = Candidate' := funext fun c => propext (hsame c)
  exact h

end Table

/-! ## Names -/

section Collected

variable {p : Program} {t : Table} {name type : String} {info : TypeInfo} {m m' : MethodInfo}

theorem Declares.filed (h : Declares p t) (hfind : t.find? name = some info) : info.Filed := by
  rcases h.cases_find? hfind with ⟨d, -, -, rfl⟩ | ⟨builtin, rfl⟩
  · exact .ofDecl d
  · exact .bare builtin .primitive

/-- The constructors of a class are named like it. -/
theorem Declares.name_constructor (h : Declares p t) (hfit : ∀ d ∈ p.declarations, d.MembersFit)
    (hfind : t.find? name = some info) (hm : m ∈ info.constructors) : m.name = name := by
  rcases h.cases_find? hfind with ⟨d, hd, rfl, rfl⟩ | ⟨builtin, rfl⟩
  · cases d with
    | class_ d =>
      rcases exists_constructor_of_mem (hfit _ hd) (h.keys d hd) hm with ⟨f, hf, rfl⟩ | ⟨-, rfl⟩
      · exact ((hfit _ hd).constructors f hf).2
      · rfl
    | interface d =>
      obtain ⟨hvalue, hconstructor⟩ := List.mem_filter.1 hm
      obtain ⟨s, hs, rfl⟩ := mem_methods_ofInterface hvalue
      have hkind : s.kind = .method := hfit _ hd s hs
      simp [MethodInfo.isConstructor, MethodInfo.ofSignature, hkind] at hconstructor
  · cases hm

theorem MethodInfo.WellNamed.signature_iff (hm : m.WellNamed) (hm' : m'.WellNamed)
    (hname : m.name = m'.name) : m.signature = m'.signature ↔ m.params = m'.params := by
  constructor
  · exact fun heq => (signatureText_inj hm.name hm'.name hm.params hm'.params heq).2
  · intro hparams
    rw [MethodInfo.signature, MethodInfo.signature, hname, hparams]

/-- A method has the key of arguments if their types are those of its parameters. -/
theorem MethodInfo.WellNamed.key_iff {args : List Ty} (hm : m.WellNamed)
    (hargs : ∀ a ∈ args, a.IsValue) (hname : m.name = name) :
    m.signature = signatureText name args ↔ m.params = args := by
  subst hname
  constructor
  · exact fun heq => (signatureText_inj hm.name hm.name hm.params hargs heq).2
  · intro hparams
    rw [MethodInfo.signature, hparams]

end Collected

/-- If collecting the types of a parsed program finds no fault, the method that a call means and the
constructor that a creation means are chosen right, for arguments of known types. -/
theorem rightChoice_collect {source : String} {p : Program} (h : parseSource source = .ok p)
    (hfaults : (collect p).faults = #[]) (type name : String) {args : List Ty}
    (hargs : ∀ a ∈ args, (collect p).table.contains a.name = true) :
    (collect p).table.RightChoice args (fun c : TypeInfo × MethodInfo => c.2.params)
        (fun c => (collect p).table.Visible type name c.1 c.2)
        ((collect p).table.resolveMethod type name args) ∧
      (collect p).table.RightChoice args MethodInfo.params
        (fun m => ∃ info, (collect p).table.find? type = some info ∧
          m ∈ info.methods.values ∧ m.isConstructor = true)
        ((collect p).table.resolveConstructor type args) := by
  have hdeclares : Declares p (collect p).table := declares_collect (by rw [hfaults])
  have hnamed := wellNamed_collect (Lowering.wellNamed_of_parseSource h).1
  have hvalues : ∀ a ∈ args, a.IsValue := fun a ha => hnamed.of_contains (hargs a ha)
  obtain ⟨tokens, -, hparse⟩ := Lowering.parseSource_eq_ok_iff.1 h
  have hfit := parse_membersFit hparse
  generalize (collect p).table = t at *
  have hwell : ∀ o ∈ t.ancestors type, ∀ m ∈ o.methods.values, m.WellNamed :=
    fun o ho => (hnamed o (mem_of_mem_climb ho)).methods
  have hfiled : ∀ o ∈ t.ancestors type, o.Filed :=
    fun o ho => hdeclares.filed (Table.find?_of_mem_ancestors ho)
  constructor
  · have hmem : ∀ {f}, f ∈ t.methodsNamed type name ↔ t.Visible type name f.1 f.2 :=
      Table.mem_methodsNamed hfiled fun o ho o' ho' m m' hm hm' =>
        (hwell o' ho' m' hm'.method).signature_iff (hwell o ho m hm.method)
          (hm'.name.trans hm.name.symm)
    refine (Table.rightChoice_find? fun f hf => ?_).congr fun _ => hmem
    have hfound := foundOn_methodsNamed f hf
    rw [beq_iff_eq]
    exact (hwell _ hfound.owner _ hfound.method).key_iff hvalues hfound.name
  · cases hfind : t.find? type with
    | none =>
      rw [Table.resolveConstructor, hfind]
      have hempty : ∀ m : MethodInfo, ¬ ∃ info : TypeInfo, none = some info ∧
          m ∈ info.methods.values ∧ m.isConstructor = true := by
        rintro m ⟨info, hnone, -⟩
        cases hnone
      exact ⟨fun m hm => (by cases hm), fun m hm => (hempty m hm).elim,
        fun _ m hm => (hempty m hm).elim, fun _ => rfl⟩
    | some info =>
      rw [Table.resolveConstructor, hfind]
      refine (Table.rightChoice_find? fun m hm => ?_).congr fun m => ?_
      · rw [beq_iff_eq]
        exact ((hnamed.of_find? hfind).1.methods m (List.mem_filter.1 hm).1).key_iff hvalues
          (hdeclares.name_constructor hfit hfind hm)
      · rw [TypeInfo.constructors, List.mem_filter]
        simp

/-- A class with overloads, one of them overridden in a subclass, and a constructor. -/
def overridden : String :=
  "class A \x7b int f(int n) { return n; } int f(char c) { return c; } \x7d " ++
    "class B extends A \x7b B(int n) { } int f(int n) { return n; } \x7d"

theorem overridden_rightChoice : ∃ p t, parseSource overridden = .ok p ∧
    (collect p).faults = #[] ∧ (collect p).table = t ∧ t.contains "char" = true ∧
      ((t.resolveMethod "B" "f" [.char]).any fun c => c.1.name == "A") = true ∧
      t.RightChoice [.char] (fun c : TypeInfo × MethodInfo => c.2.params)
        (fun c => t.Visible "B" "f" c.1 c.2) (t.resolveMethod "B" "f" [.char]) ∧
      t.RightChoice [.char] MethodInfo.params
        (fun m => ∃ info, t.find? "B" = some info ∧ m ∈ info.methods.values ∧
          m.isConstructor = true)
        (t.resolveConstructor "B" [.char]) := by
  have hok : ((parseSource overridden).toOption.any fun p =>
      (collect p).faults.isEmpty && ((collect p).table.contains "char" &&
        ((collect p).table.resolveMethod "B" "f" [.char]).any fun c =>
          c.1.name == "A")) = true := by
    rw [parseSource, tokenize_ofList (s := overridden) (Source.append_ofList rfl rfl)]
    decide +kernel
  obtain ⟨p, h, hok⟩ := Lowering.exists_ok_of_any hok
  obtain ⟨hfaults, hok⟩ := (Bool.and_eq_true _ _).mp hok
  obtain ⟨hchar, hfound⟩ := (Bool.and_eq_true _ _).mp hok
  exact ⟨p, _, h, Array.isEmpty_iff.1 hfaults, rfl, hchar, hfound,
    rightChoice_collect h (Array.isEmpty_iff.1 hfaults) "B" "f"
      (List.forall_mem_singleton.2 hchar)⟩

end Javelet.Types
