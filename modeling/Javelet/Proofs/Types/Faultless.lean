import Javelet.Proofs.Types.Collecting
import Mathlib.Data.List.Nodup

/-!
# Programs without faults in their types

If collecting finds no fault, the table holds exactly what the program declares: every type has its
declared supertypes and members, no two members of a type have the same key, supertypes are declared
and of the right kind, and every class declares the methods of its interface.
-/
namespace Javelet

namespace Dictionary

variable {α : Type}

theorem find?_insert (d : Dictionary α) (key other : String) (value : α) :
    (d.insert key value).find? other = if other = key then some value else d.find? other := by
  split
  · rename_i h
    rw [h, find?_insert_self]
  · rename_i h
    exact find?_insert_of_ne d h value

theorem mem_keys {d : Dictionary α} {key : String} {value : α} (h : d.find? key = some value) :
    key ∈ d.keys :=
  List.mem_map.2 ⟨_, mem_of_lookup h, rfl⟩

theorem mem_values {d : Dictionary α} {key : String} {value : α} (h : d.find? key = some value) :
    value ∈ d.values :=
  List.mem_map.2 ⟨_, mem_of_lookup h, rfl⟩

theorem contains_iff {d : Dictionary α} {key : String} :
    d.contains key = true ↔ ∃ value, d.find? key = some value :=
  Option.isSome_iff_exists

end Dictionary

/-- All members of a class with a header, in the order in which they are collected. -/
def ClassDecl.headers (d : ClassDecl) : List Signature :=
  d.constructors.map Method.signature ++ (d.methods ++ d.main.toList).map Method.signature

theorem ClassDecl.WellNamed.headers {d : ClassDecl} (h : d.WellNamed) :
    ∀ s ∈ d.headers, s.WellNamed := by
  intro s hs
  obtain ⟨m, hm, rfl⟩ : ∃ m ∈ d.constructors ++ d.methods ++ d.main.toList, m.signature = s := by
    rw [List.append_assoc, ← List.mem_map, List.map_append]
    exact hs
  exact (h.methods m hm).signature

namespace Types

/-! ## What is declared -/

/-- A type with more methods. -/
def TypeInfo.putMethods (info : TypeInfo) (headers : List Signature) : TypeInfo :=
  headers.foldl (fun info s => info.putMethod (.ofSignature s)) info

/-- A type with more properties. -/
def TypeInfo.putProperties (info : TypeInfo) (properties : List Property) : TypeInfo :=
  properties.foldl (fun info p => info.putProperty (.ofProperty p)) info

/-- A class with its declared members. -/
def TypeInfo.declaredClass (d : ClassDecl) : TypeInfo :=
  let info : TypeInfo := ⟨d.name, .class_, d.superclass, d.interface, .empty, .empty⟩
  (info.putProperties d.properties).putMethods d.headers

/-- A class as it is declared. Without a constructor of its own it has one without parameters. -/
def TypeInfo.ofClass (d : ClassDecl) : TypeInfo :=
  if (declaredClass d).hasConstructor then declaredClass d
  else (declaredClass d).putMethod (Collected.defaultConstructor d.name)

/-- An interface as it is declared. -/
def TypeInfo.ofInterface (d : InterfaceDecl) : TypeInfo :=
  (TypeInfo.bare d.name .interface).putMethods d.methods

/-- A type as it is declared. -/
def TypeInfo.ofDecl : TypeDecl → TypeInfo
  | .class_ d => ofClass d
  | .interface d => ofInterface d

theorem find?_putMethods (info : TypeInfo) (headers : List Signature) (key : String) :
    ((info.putMethods headers).methods.find? key = info.methods.find? key ∧
        ∀ s ∈ headers, s.text ≠ key) ∨
      ∃ s ∈ headers, s.text = key ∧
        (info.putMethods headers).methods.find? key = some (.ofSignature s) := by
  induction headers generalizing info with
  | nil => exact .inl ⟨rfl, List.forall_mem_nil _⟩
  | cons s headers ih =>
    have hput : (info.putMethod (.ofSignature s)).methods.find? key =
        if key = s.text then some (.ofSignature s) else info.methods.find? key :=
      Dictionary.find?_insert ..
    rcases ih (info.putMethod (.ofSignature s)) with ⟨hfind, hnone⟩ | ⟨s', hs', hkey, hfind⟩
    · rw [hput] at hfind
      by_cases hkey : key = s.text
      · rw [if_pos hkey] at hfind
        exact .inr ⟨s, List.mem_cons_self .., hkey.symm, hfind⟩
      · rw [if_neg hkey] at hfind
        exact .inl ⟨hfind, List.forall_mem_cons.2 ⟨Ne.symm hkey, hnone⟩⟩
    · exact .inr ⟨s', List.mem_cons_of_mem _ hs', hkey, hfind⟩

/-- Every header is kept, if no two of them have the same key. -/
theorem find?_putMethods_of_mem (info : TypeInfo) {headers : List Signature}
    (hn : (headers.map Signature.text).Nodup) {s : Signature} (hs : s ∈ headers) :
    (info.putMethods headers).methods.find? s.text = some (.ofSignature s) := by
  rcases find?_putMethods info headers s.text with ⟨-, hnone⟩ | ⟨s', hs', hkey, hfind⟩
  · exact (hnone s hs rfl).elim
  · rw [hfind, List.inj_on_of_nodup_map hn hs' hs hkey]

theorem mem_values_putMethods {info : TypeInfo} {headers : List Signature} {m : MethodInfo}
    (h : m ∈ (info.putMethods headers).methods.values) :
    m ∈ info.methods.values ∨ ∃ s ∈ headers, m = .ofSignature s := by
  induction headers generalizing info with
  | nil => exact .inl h
  | cons s headers ih =>
    rcases ih h with h | ⟨s', hs', rfl⟩
    · rcases Dictionary.mem_values_insert h with rfl | h
      · exact .inr ⟨s, List.mem_cons_self .., rfl⟩
      · exact .inl h
    · exact .inr ⟨s', List.mem_cons_of_mem _ hs', rfl⟩

theorem putMethods_eq (info : TypeInfo) (headers : List Signature) :
    info.putMethods headers = { info with methods := (info.putMethods headers).methods } := by
  induction headers generalizing info with
  | nil => rfl
  | cons s headers ih => exact ih _

theorem putProperties_eq (info : TypeInfo) (properties : List Property) :
    info.putProperties properties =
      { info with properties := (info.putProperties properties).properties } := by
  induction properties generalizing info with
  | nil => rfl
  | cons p properties ih => exact ih _

theorem find?_putProperties {info : TypeInfo} {properties : List Property} {name : String}
    {found : PropertyInfo} (h : (info.putProperties properties).properties.find? name = some found) :
    info.properties.find? name = some found ∨
      ∃ p ∈ properties, p.variable_.name = name ∧ found = .ofProperty p := by
  induction properties generalizing info with
  | nil => exact .inl h
  | cons p properties ih =>
    rcases ih h with h | ⟨p', hp', hname, rfl⟩
    · have hput : (info.putProperty (.ofProperty p)).properties.find? name =
          if name = p.variable_.name then some (.ofProperty p) else info.properties.find? name :=
        Dictionary.find?_insert ..
      rw [hput] at h
      split at h
      · rename_i hname
        cases h
        exact .inr ⟨p, List.mem_cons_self .., hname.symm, rfl⟩
      · exact .inl h
    · exact .inr ⟨p', List.mem_cons_of_mem _ hp', hname, rfl⟩

/-! ## Steps without faults -/

/-- A step that only adds faults to those that are there. -/
def Appends (f : Collected → Collected) : Prop :=
  ∀ c, ∃ new, (f c).faults.toList = c.faults.toList ++ new

theorem Local.appends {view : TypeInfo → TypeInfo} {name : String} {f : Collected → Collected}
    (hf : ∀ sights, Local view sights name f) : Appends f := by
  intro c
  have hshows := Table.shows_sights view c.table
  obtain ⟨-, new, hnew, -⟩ := (hf _).reads c c hshows hshows rfl
  exact ⟨new, hnew⟩

theorem Appends.comp {f g : Collected → Collected} (hf : Appends f) (hg : Appends g) :
    Appends fun c => g (f c) := by
  intro c
  obtain ⟨new, hnew⟩ := hf c
  obtain ⟨more, hmore⟩ := hg (f c)
  exact ⟨new ++ more, by rw [hmore, hnew, List.append_assoc]⟩

theorem Appends.foldl {α : Type} {step : Collected → α → Collected} (h : ∀ x, Appends (step · x))
    (xs : List α) : Appends fun c => xs.foldl step c := by
  induction xs with
  | nil => exact fun c => ⟨[], by simp⟩
  | cons x xs ih => exact (h x).comp ih

/-- If two steps add no fault, neither of them does. -/
theorem Appends.split {f g : Collected → Collected} (hf : Appends f) (hg : Appends g)
    {c : Collected} (h : (g (f c)).faults.toList = c.faults.toList) :
    (f c).faults.toList = c.faults.toList ∧
      (g (f c)).faults.toList = (f c).faults.toList := by
  obtain ⟨new, hnew⟩ := hf c
  obtain ⟨more, hmore⟩ := hg (f c)
  rw [hmore, hnew, List.append_assoc, List.append_right_eq_self, List.append_eq_nil_iff] at h
  rw [hmore, hnew, h.1, h.2]
  simp

theorem faults_reportAll (c : Collected) (new : List (Located Fault)) :
    (c.reportAll new).faults.toList = c.faults.toList ↔ new = [] := by
  simp [Collected.reportAll]

theorem Local.contains {view : TypeInfo → TypeInfo} {name : String} {f : Collected → Collected}
    (hf : ∀ sights, Local view sights name f) (c : Collected) :
    (f c).table.contains = c.table.contains :=
  ((hf _).shows (Table.shows_sights view c.table)).contains (Table.shows_sights view c.table)

/-! ## Members that fit -/

/-- How a step builds up the type of a name: without a fault exactly if what it adds fits the type,
and what it makes of the type then. Of the table it matters only which names are known. -/
structure Builds (name : String) (f : Collected → Collected) (Fits : Table → TypeInfo → Prop)
    (put : TypeInfo → TypeInfo) : Prop where
  appends : Appends f
  contains : ∀ c, (f c).table.contains = c.table.contains
  reads : ∀ {t t' : Table}, t.contains = t'.contains → ∀ info, Fits t info ↔ Fits t' info
  quiet : ∀ {c info}, c.table.find? name = some info →
    ((f c).faults.toList = c.faults.toList ↔ Fits c.table info)
  found : ∀ {c info}, c.table.find? name = some info → Fits c.table info →
    (f c).table.find? name = some (put info)

/-- Every member fits the type that those before it have made. -/
def FitAll {α : Type} (Fits : TypeInfo → α → Prop) (put : TypeInfo → α → TypeInfo) :
    TypeInfo → List α → Prop
  | _, [] => True
  | info, x :: xs => Fits info x ∧ FitAll Fits put (put info x) xs

section FitAll

variable {α : Type} {Fits : TypeInfo → α → Prop} {put : TypeInfo → α → TypeInfo}

theorem fitAll_append (info : TypeInfo) (xs ys : List α) :
    FitAll Fits put info (xs ++ ys) ↔
      FitAll Fits put info xs ∧ FitAll Fits put (xs.foldl put info) ys := by
  induction xs generalizing info with
  | nil => exact (and_iff_right trivial).symm
  | cons x xs ih => rw [List.cons_append, FitAll, FitAll, ih, List.foldl_cons, and_assoc]

/-- Members under keys fit if each is in order by itself and no two of them have the same key. -/
theorem fitAll_keys {β : Type} {dict : TypeInfo → Dictionary β} {key : α → String} {value : α → β}
    {Ok : α → Prop} (hput : ∀ info x, dict (put info x) = (dict info).insert (key x) (value x))
    (info : TypeInfo) (xs : List α) :
    FitAll (fun info x => Ok x ∧ (dict info).contains (key x) = false) put info xs ↔
      (∀ x ∈ xs, Ok x) ∧ (xs.map key).Nodup ∧ ∀ x ∈ xs, (dict info).contains (key x) = false := by
  induction xs generalizing info with
  | nil => simp [FitAll]
  | cons x xs ih =>
    have hfree : ∀ y, (dict (put info x)).contains (key y) = false ↔
        key y ≠ key x ∧ (dict info).contains (key y) = false := by
      intro y
      rw [hput, Dictionary.contains, Dictionary.find?_insert, Dictionary.contains]
      split
      · simp [*]
      · simp [*]
    rw [FitAll, ih, List.map_cons, List.nodup_cons, List.forall_mem_cons, List.forall_mem_cons]
    simp only [hfree, List.mem_map, not_exists, not_and]
    constructor
    · rintro ⟨⟨hok, hkey⟩, hall, hn, hrest⟩
      exact ⟨⟨hok, hall⟩, ⟨fun y hy => (hrest y hy).1, hn⟩, hkey, fun y hy => (hrest y hy).2⟩
    · rintro ⟨⟨hok, hall⟩, ⟨hne, hn⟩, hkey, hrest⟩
      exact ⟨⟨hok, hkey⟩, hall, hn, fun y hy => ⟨hne y hy, hrest y hy⟩⟩

end FitAll

theorem find?_modify_self {c : Collected} {info : TypeInfo} {name : String}
    (hown : c.table.find? name = some info) {change : TypeInfo → TypeInfo}
    (hname : ∀ info, (change info).name = info.name) :
    (c.modify name change).table.find? name = some (change info) := by
  rw [Collected.modify, Table.find?_modify _ _ _ hname, if_pos rfl, hown]
  rfl

namespace Builds

variable {name : String} {f g : Collected → Collected} {Fits Fits' : Table → TypeInfo → Prop}
  {put put' : TypeInfo → TypeInfo}

theorem same : Builds name (fun c => c) (fun _ _ => True) fun info => info where
  appends _ := ⟨[], by simp⟩
  contains _ := rfl
  reads _ _ := Iff.rfl
  quiet _ := iff_of_true rfl trivial
  found hown _ := hown

theorem modify {change : TypeInfo → TypeInfo} (hname : ∀ info, (change info).name = info.name) :
    Builds name (·.modify name change) (fun _ _ => True) change where
  appends _ := ⟨[], by simp [Collected.modify]⟩
  contains c := by
    funext other
    rw [Collected.modify, Table.contains, Table.find?_modify _ _ _ hname, Table.contains]
    split
    · exact Option.isSome_map ..
    · rfl
  reads _ _ := Iff.rfl
  quiet _ := iff_of_true rfl trivial
  found hown _ := find?_modify_self hown hname

theorem comp (hf : Builds name f Fits put) (hg : Builds name g Fits' put') :
    Builds name (fun c => g (f c)) (fun t info => Fits t info ∧ Fits' t (put info))
      fun info => put' (put info) where
  appends := hf.appends.comp hg.appends
  contains c := (hg.contains (f c)).trans (hf.contains c)
  reads h info := and_congr (hf.reads h info) (hg.reads h (put info))
  quiet {c info} hown := by
    constructor
    · intro hquiet
      obtain ⟨hfirst, hrest⟩ := hf.appends.split hg.appends hquiet
      have hfits := (hf.quiet hown).1 hfirst
      exact ⟨hfits, (hg.reads (hf.contains c) _).1 ((hg.quiet (hf.found hown hfits)).1 hrest)⟩
    · rintro ⟨hfits, hrest⟩
      have hquiet := (hg.quiet (hf.found hown hfits)).2 ((hg.reads (hf.contains c) _).2 hrest)
      exact hquiet.trans ((hf.quiet hown).2 hfits)
  found {c info} hown h :=
    hg.found (hf.found hown h.1) ((hg.reads (hf.contains c) _).2 h.2)

/-- Members are added one after the other. -/
theorem foldl {α : Type} {step : Collected → α → Collected} {Fits : Table → TypeInfo → α → Prop}
    {put : TypeInfo → α → TypeInfo}
    (h : ∀ x, Builds name (step · x) (fun t info => Fits t info x) (put · x)) (xs : List α) :
    Builds name (fun c => xs.foldl step c) (fun t info => FitAll (Fits t) put info xs)
      fun info => xs.foldl put info := by
  induction xs with
  | nil => exact same
  | cons x xs ih => exact (h x).comp ih

end Builds

/-- A property fits a class if its type is known and its name is free. -/
def PropertyFits (t : Table) (info : TypeInfo) (p : Property) : Prop :=
  typeFaults t p.variable_.type p.variable_.position = [] ∧
    info.properties.contains p.variable_.name = false

/-- A header fits a type if its types are known and its key is free. -/
def HeaderFits (t : Table) (info : TypeInfo) (s : Signature) : Prop :=
  headerFaults t s = [] ∧ info.methods.contains s.text = false

/-- A method fits a class if there is no property of its name either. -/
def MethodFits (t : Table) (info : TypeInfo) (s : Signature) : Prop :=
  info.properties.contains s.name = false ∧ HeaderFits t info s

section Members

variable {c : Collected} {info : TypeInfo}

theorem builds_collectProperty (name : String) (p : Property) :
    Builds name (Collected.collectProperty name · p) (fun t info => PropertyFits t info p)
      (·.putProperty (.ofProperty p)) where
  appends := Local.appends fun sights =>
    @local_collectProperty .outline sights name (fun _ _ _ => rfl) p
  contains := Local.contains fun sights =>
    @local_collectProperty .outline sights name (fun _ _ _ => rfl) p
  reads h info := by rw [PropertyFits, PropertyFits, typeFaults_congr h]
  quiet {c info} hown := by
    rw [Collected.collectProperty_eq, PropertyFits, hown]
    by_cases htype : typeFaults c.table p.variable_.type p.variable_.position = []
    · rw [if_pos htype, and_iff_right htype]
      dsimp only
      split
      · simp [Collected.report_eq, Collected.reportAll, *]
      · simp [Collected.modify, *]
    · rw [if_neg htype, faults_reportAll]
      exact iff_of_false htype fun h => htype h.1
  found {c info} hown := by
    rintro ⟨htype, hfree⟩
    rw [Collected.collectProperty_eq, if_pos htype, hown]
    dsimp only
    rw [if_neg (by simp [hfree])]
    exact find?_modify_self hown fun _ => rfl

theorem builds_collectMethod (name : String) (s : Signature) :
    Builds name (Collected.collectMethod name · s) (fun t info => HeaderFits t info s)
      (·.putMethod (.ofSignature s)) where
  appends := Local.appends fun sights =>
    @local_collectMethod .outline sights name (fun _ _ _ => rfl) s
  contains := Local.contains fun sights =>
    @local_collectMethod .outline sights name (fun _ _ _ => rfl) s
  reads h info := by rw [HeaderFits, HeaderFits, headerFaults_congr h]
  quiet {c info} hown := by
    rw [Collected.collectMethod_eq, HeaderFits]
    by_cases hheader : headerFaults c.table s = []
    · rw [if_pos hheader, and_iff_right hheader, Collected.addMethod, hown]
      dsimp only
      change _ ↔ info.methods.contains (MethodInfo.ofSignature s).signature = false
      split
      · simp [Collected.report_eq, Collected.reportAll, *]
      · simp [Collected.modify, *]
    · rw [if_neg hheader, faults_reportAll]
      exact iff_of_false hheader fun h => hheader h.1
  found {c info} hown := by
    rintro ⟨hheader, hfree⟩
    rw [Collected.collectMethod_eq, if_pos hheader, Collected.addMethod, hown]
    dsimp only
    refine (congrArg (fun c : Collected => c.table.find? name) (if_neg ?_)).trans
      (find?_modify_self hown fun _ => rfl)
    exact ne_true_of_eq_false hfree

theorem builds_collectNamedMethod (name : String) (s : Signature) :
    Builds name (Collected.collectNamedMethod name · s) (fun t info => MethodFits t info s)
      (·.putMethod (.ofSignature s)) where
  appends := Local.appends fun sights =>
    @local_collectNamedMethod .outline sights name (fun _ _ _ => rfl) s
  contains := Local.contains fun sights =>
    @local_collectNamedMethod .outline sights name (fun _ _ _ => rfl) s
  reads h info := by rw [MethodFits, MethodFits, (builds_collectMethod name s).reads h]
  quiet {c info} hown := by
    rw [Collected.collectNamedMethod, hown, Option.any_some, MethodFits]
    split
    · simp [Collected.report_eq, Collected.reportAll, *]
    · rename_i hname
      rw [(builds_collectMethod name s).quiet hown, and_iff_right (Bool.not_eq_true _ ▸ hname)]
  found {c info} hown := by
    rintro ⟨hname, hfits⟩
    rw [Collected.collectNamedMethod, hown, Option.any_some, if_neg (ne_true_of_eq_false hname)]
    exact (builds_collectMethod name s).found hown hfits

/-- Properties fit a class, added one after the other. -/
def PropertiesFit (t : Table) : TypeInfo → List Property → Prop :=
  FitAll (PropertyFits t) fun info p => info.putProperty (.ofProperty p)

/-- Headers fit a type, added one after the other. -/
def HeadersFit (t : Table) : TypeInfo → List Signature → Prop :=
  FitAll (HeaderFits t) fun info s => info.putMethod (.ofSignature s)

/-- Methods fit a class, added one after the other. -/
def MethodsFit (t : Table) : TypeInfo → List Signature → Prop :=
  FitAll (MethodFits t) fun info s => info.putMethod (.ofSignature s)

theorem propertiesFit_iff {t : Table} {properties : List Property} :
    PropertiesFit t info properties ↔
      (∀ p ∈ properties, typeFaults t p.variable_.type p.variable_.position = []) ∧
        (properties.map fun p => p.variable_.name).Nodup ∧
        ∀ p ∈ properties, info.properties.contains p.variable_.name = false :=
  fitAll_keys (fun _ _ => rfl) info properties

theorem headersFit_iff {t : Table} {headers : List Signature} :
    HeadersFit t info headers ↔
      (∀ s ∈ headers, headerFaults t s = []) ∧ (headers.map Signature.text).Nodup ∧
        ∀ s ∈ headers, info.methods.contains s.text = false :=
  fitAll_keys (fun _ _ => rfl) info headers

theorem headersFit_append {t : Table} {headers rest : List Signature} :
    HeadersFit t info (headers ++ rest) ↔
      HeadersFit t info headers ∧ HeadersFit t (info.putMethods headers) rest :=
  fitAll_append info headers rest

theorem methodsFit_iff {t : Table} {headers : List Signature} : MethodsFit t info headers ↔
    (∀ s ∈ headers, info.properties.contains s.name = false) ∧ HeadersFit t info headers := by
  induction headers generalizing info with
  | nil => exact iff_of_true trivial ⟨List.forall_mem_nil _, trivial⟩
  | cons s headers ih =>
    rw [List.forall_mem_cons]
    exact (and_congr_right fun _ => ih).trans and_and_and_comm

/-- The members of a class are in order: the types in them are known, no two properties have the
same name and no two headers the same key, and no method is named like a property. -/
structure MembersObey (t : Table) (d : ClassDecl) : Prop where
  propertyTypes : ∀ p ∈ d.properties,
    typeFaults t p.variable_.type p.variable_.position = []
  propertyNames : (d.properties.map fun p => p.variable_.name).Nodup
  methodNames : ∀ s ∈ (d.methods ++ d.main.toList).map Method.signature,
    s.name ∉ d.properties.map fun p => p.variable_.name
  headers : ∀ s ∈ d.headers, headerFaults t s = []
  keys : (d.headers.map Signature.text).Nodup

theorem contains_putProperties (info : TypeInfo) (properties : List Property) (name : String) :
    (info.putProperties properties).properties.contains name = false ↔
      info.properties.contains name = false ∧
        name ∉ properties.map fun p => p.variable_.name := by
  induction properties generalizing info with
  | nil => simp [TypeInfo.putProperties]
  | cons p properties ih =>
    have hput : (info.putProperty (.ofProperty p)).properties.contains name = false ↔
        name ≠ p.variable_.name ∧ info.properties.contains name = false := by
      rw [TypeInfo.putProperty, Dictionary.contains, Dictionary.find?_insert, Dictionary.contains]
      change Option.isSome (if name = p.variable_.name then _ else _) = false ↔ _
      split
      · simp [*]
      · simp [*]
    rw [List.map_cons, List.mem_cons, not_or]
    refine (ih (info.putProperty (.ofProperty p))).trans ?_
    rw [hput]
    exact ⟨fun h => ⟨h.1.2, h.1.1, h.2⟩, fun h => ⟨⟨h.2.1, h.1⟩, h.2.2⟩⟩

/-- A class without its members. -/
def TypeInfo.headingOf (d : ClassDecl) : TypeInfo :=
  ⟨d.name, .class_, d.superclass, d.interface, .empty, .empty⟩

/-- The members of a class are in order if they fit, added to the class one after the other. -/
theorem membersObey_iff {t : Table} {d : ClassDecl} : MembersObey t d ↔
    PropertiesFit t (.headingOf d) d.properties ∧
      HeadersFit t ((TypeInfo.headingOf d).putProperties d.properties)
        (d.constructors.map Method.signature) ∧
      MethodsFit t (((TypeInfo.headingOf d).putProperties d.properties).putMethods
        (d.constructors.map Method.signature)) ((d.methods ++ d.main.toList).map Method.signature) := by
  have hnames : ∀ name, (((TypeInfo.headingOf d).putProperties d.properties).putMethods
      (d.constructors.map Method.signature)).properties.contains name = false ↔
        name ∉ d.properties.map fun p => p.variable_.name := by
    intro name
    rw [putMethods_eq, contains_putProperties]
    exact and_iff_right rfl
  have hmethods : ((TypeInfo.headingOf d).putProperties d.properties).methods = .empty := by
    rw [putProperties_eq]
    rfl
  have hheaders : HeadersFit t ((TypeInfo.headingOf d).putProperties d.properties) d.headers ↔
      (∀ s ∈ d.headers, headerFaults t s = []) ∧ (d.headers.map Signature.text).Nodup := by
    rw [headersFit_iff, hmethods]
    exact and_congr_right fun _ => and_iff_left fun _ _ => rfl
  rw [ClassDecl.headers, headersFit_append] at hheaders
  rw [propertiesFit_iff, methodsFit_iff]
  simp only [hnames]
  constructor
  · rintro ⟨htypes, hproperties, hmethods, hs, hkeys⟩
    obtain ⟨hconstructors, hrest⟩ := hheaders.2 ⟨hs, hkeys⟩
    exact ⟨⟨htypes, hproperties, fun _ _ => rfl⟩, hconstructors, hmethods, hrest⟩
  · rintro ⟨⟨htypes, hproperties, -⟩, hconstructors, hmethods, hrest⟩
    obtain ⟨hs, hkeys⟩ := hheaders.1 ⟨hconstructors, hrest⟩
    exact ⟨htypes, hproperties, hmethods, hs, hkeys⟩

/-- A class that has no constructor gets one without parameters. -/
def TypeInfo.withConstructor (className : String) (info : TypeInfo) : TypeInfo :=
  if info.hasConstructor then info else info.putMethod (Collected.defaultConstructor className)

/-- The members of a class are added without a fault exactly if they are in order, and the class is
in the table as it is declared then. -/
theorem quiet_collectClass {d : ClassDecl} (hown : c.table.find? d.name = some (.headingOf d)) :
    ((c.collectClass d).faults.toList = c.faults.toList ↔ MembersObey c.table d) ∧
      (MembersObey c.table d → (c.collectClass d).table.find? d.name = some (.ofClass d)) := by
  have hproperties := Builds.foldl (builds_collectProperty d.name) d.properties
  have hconstructors := Builds.foldl (builds_collectMethod d.name)
    (d.constructors.map Method.signature)
  have hmethods := Builds.foldl (builds_collectNamedMethod d.name)
    ((d.methods ++ d.main.toList).map Method.signature)
  have hname : ∀ info, (TypeInfo.withConstructor d.name info).name = info.name := by
    intro info
    unfold TypeInfo.withConstructor
    split <;> rfl
  have hdefault : Builds d.name (·.modify d.name (.withConstructor d.name)) (fun _ _ => True)
      (.withConstructor d.name) := .modify hname
  have hall := ((hproperties.comp hconstructors).comp hmethods).comp hdefault
  have hobey : MembersObey c.table d ↔ _ :=
    membersObey_iff.trans (and_assoc.symm.trans (and_iff_left trivial).symm)
  refine ⟨(hall.quiet hown).trans hobey.symm, ?_⟩
  intro h
  have hdeclared : TypeInfo.declaredClass d = (TypeInfo.putMethods _ _).putMethods _ :=
    List.foldl_append
  change _ = some (TypeInfo.withConstructor d.name (.declaredClass d))
  rw [hdeclared]
  exact hall.found hown (hobey.1 h)

/-- The methods of an interface are added without a fault exactly if they are in order. -/
theorem quiet_collectInterface {e : InterfaceDecl}
    (hown : c.table.find? e.name = some (.bare e.name .interface)) :
    ((c.collectInterface e).faults.toList = c.faults.toList ↔
      (∀ s ∈ e.methods, headerFaults c.table s = []) ∧ (e.methods.map Signature.text).Nodup) ∧
      ((c.collectInterface e).faults.toList = c.faults.toList →
        (c.collectInterface e).table.find? e.name = some (.ofInterface e)) := by
  have hall := Builds.foldl (builds_collectMethod e.name) e.methods
  refine ⟨(hall.quiet hown).trans ?_, fun h => hall.found hown ((hall.quiet hown).1 h)⟩
  refine headersFit_iff.trans (and_congr_right fun _ => and_iff_left ?_)
  exact fun _ _ => rfl

end Members

/-! ## Programs without faults -/

theorem registerAll_faultless {decls : List TypeDecl} {c : Collected}
    (h : (c.registerAll decls).1.faults.toList = []) :
    c.faults.toList = [] ∧ (decls.map TypeDecl.name).Nodup ∧
      ∀ d ∈ decls, c.table.contains d.name = false := by
  induction decls generalizing c with
  | nil => exact ⟨h, List.nodup_nil, List.forall_mem_nil _⟩
  | cons d rest ih =>
    rw [Collected.registerAll, Collected.register_eq] at h
    by_cases hfree : c.table.contains d.name = true
    · rw [if_pos hfree] at h
      obtain ⟨hreport, -, -⟩ := ih h
      simp [Collected.reportAll] at hreport
    · rw [if_neg hfree] at h
      obtain ⟨hnone, hnodup, hrest⟩ := ih h
      have hother : ∀ e ∈ rest, e.name ≠ d.name ∧ c.table.contains e.name = false := by
        intro e he
        have hfind := Table.contains_eq_false.1 (hrest e he)
        rw [Table.find?_mk_cons] at hfind
        split at hfind
        · cases hfind
        · rename_i hne
          exact ⟨Ne.symm hne, Table.contains_eq_false.2 hfind⟩
      refine ⟨hnone, ?_, ?_⟩
      · rw [List.map_cons, List.nodup_cons]
        refine ⟨?_, hnodup⟩
        intro hmem
        obtain ⟨e, he, heq⟩ := List.mem_map.1 hmem
        exact (hother e he).1 heq
      · exact List.forall_mem_cons.2 ⟨Bool.not_eq_true _ ▸ hfree, fun e he => (hother e he).2⟩

theorem appends_checkInterface (d : ClassDecl) : Appends (·.checkInterface d) := by
  intro c
  dsimp only
  rw [Collected.checkInterface_eq]
  exact ⟨missingFaults c.table d, by simp [Collected.reportAll]⟩

theorem appends_collectClass (d : ClassDecl) : Appends (·.collectClass d) :=
  Local.appends fun sights => @local_collectClass .outline sights d (fun _ _ _ => rfl)
    fun _ _ _ => rfl

theorem appends_collectInterface (d : InterfaceDecl) : Appends (·.collectInterface d) :=
  (Builds.foldl (builds_collectMethod d.name) d.methods).appends

theorem appends_linkSupertypes (d : ClassDecl) : Appends (·.linkSupertypes d) :=
  Local.appends fun sights => local_linkSupertypes sights d

section Program

variable {p : Program}

/-- Every stage of a program without faults is without faults. -/
theorem faultless_stages (h : (collect p).faults.toList = []) :
    (withInterfaces p).faults.toList = [] ∧ (linked p).faults.toList = [] ∧
      Collected.cyclicClasses (linked p).table (keptClasses p) = [] ∧
      (registration p).1.faults.toList = [] := by
  have hnil : ∀ {f : Collected → Collected}, Appends f → ∀ {c}, (f c).faults.toList = [] →
      c.faults.toList = [] := by
    intro f hf c hc
    obtain ⟨new, hnew⟩ := hf c
    rw [hnew, List.append_eq_nil_iff] at hc
    exact hc.1
  have hinterfaces := hnil (.foldl (fun d => (appends_collectClass d).comp
    (appends_checkInterface d)) (keptClasses p)) h
  have hacyclic : (acyclic p).faults.toList = [] :=
    hnil (.foldl appends_collectInterface (keptInterfaces p)) hinterfaces
  rw [acyclic, Collected.faults_cutCycles, List.append_eq_nil_iff, List.map_eq_nil_iff] at hacyclic
  exact ⟨hinterfaces, hacyclic.1, hacyclic.2,
    hnil (.foldl appends_linkSupertypes (keptClasses p)) hacyclic.1⟩

section Registered

variable (h : (registration p).1.faults.toList = [])

include h

theorem nodup_names : (p.declarations.map TypeDecl.name).Nodup :=
  (registerAll_faultless h).2.1

theorem kept_eq : (registration p).2 = p.declarations := by
  obtain ⟨-, -, hfree⟩ := registerAll_faultless h
  rw [(registered_registration (nodup_names h)).kept]
  exact List.filter_eq_self.2 fun d hd => by simp [hfree d hd]

theorem mem_keptClasses {d : ClassDecl} : d ∈ keptClasses p ↔ .class_ d ∈ p.declarations := by
  rw [keptClasses, kept_eq h, List.mem_filterMap]
  constructor
  · rintro ⟨decl, hdecl, hclass⟩
    exact TypeDecl.class?_eq_some.1 hclass ▸ hdecl
  · exact fun hd => ⟨_, hd, rfl⟩

theorem mem_keptInterfaces {d : InterfaceDecl} :
    d ∈ keptInterfaces p ↔ .interface d ∈ p.declarations := by
  rw [keptInterfaces, kept_eq h, List.mem_filterMap]
  constructor
  · rintro ⟨decl, hdecl, hinterface⟩
    exact TypeDecl.interface?_eq_some.1 hinterface ▸ hdecl
  · exact fun hd => ⟨_, hd, rfl⟩

/-- Nothing is wrong with a supertype that is declared as what it has to be. -/
theorem supertypeFaults_registration (category : Category) (hcategory : category ≠ .primitive)
    {pos : Position} {name : Option String} :
    supertypeFaults (registration p).1.table category pos name = [] ↔
      ∀ s ∈ name, ∃ d ∈ p.declarations, d.name = s ∧ d.category = category := by
  cases name with
  | none => exact iff_of_true rfl nofun
  | some s =>
    rw [supertypeFaults_eq_nil_iff, category_registration category hcategory, kept_eq h]
    exact ⟨fun hs _ heq => Option.some.inj heq ▸ hs, fun hs => hs s rfl⟩

end Registered

/-- A table holds what a program declares, and the declarations fit together. -/
structure Declares (p : Program) (t : Table) : Prop where
  nodup : (p.declarations.map TypeDecl.name).Nodup
  own : ∀ d ∈ p.declarations, t.find? d.name = some (.ofDecl d)
  others : ∀ name, name ∉ p.declarations.map TypeDecl.name →
    t.find? name = Table.initial.find? name
  keys : ∀ d, .class_ d ∈ p.declarations → (d.headers.map Signature.text).Nodup
  superclass : ∀ d, .class_ d ∈ p.declarations → ∀ s ∈ d.superclass,
    ∃ d', .class_ d' ∈ p.declarations ∧ d'.name = s
  interface : ∀ d, .class_ d ∈ p.declarations → ∀ i ∈ d.interface,
    ∃ e, .interface e ∈ p.declarations ∧ e.name = i ∧
      ∀ s ∈ e.methods, (TypeInfo.ofClass d).methods.contains s.text = true

theorem interface_ofClass (d : ClassDecl) : (TypeInfo.ofClass d).interface = d.interface := by
  have hdeclared : (TypeInfo.declaredClass d).interface = d.interface := by
    rw [TypeInfo.declaredClass, putMethods_eq, putProperties_eq]
  unfold TypeInfo.ofClass
  split
  · exact hdeclared
  · exact hdeclared

theorem superclass_ofClass (d : ClassDecl) : (TypeInfo.ofClass d).superclass = d.superclass := by
  have hdeclared : (TypeInfo.declaredClass d).superclass = d.superclass := by
    rw [TypeInfo.declaredClass, putMethods_eq, putProperties_eq]
  unfold TypeInfo.ofClass
  split
  · exact hdeclared
  · exact hdeclared

/-- Without cycles nothing is cut. -/
theorem find?_acyclic_eq (h : Collected.cyclicClasses (linked p).table (keptClasses p) = [])
    (name : String) : (acyclic p).table.find? name = (linked p).table.find? name := by
  rw [acyclic, Collected.find?_cutCycles, h]
  exact if_neg List.not_mem_nil

/-- The names of classes and of interfaces are different. -/
theorem class_ne_interface {d : ClassDecl} {e : InterfaceDecl} (hd : d ∈ keptClasses p)
    (he : e ∈ keptInterfaces p) : e.name ≠ d.name := by
  intro heq
  have hfind := find?_interface he
  rw [heq, find?_class hd] at hfind
  cases hfind

/-- An interface has no methods before they are added. -/
theorem find?_bareInterface (h : Collected.cyclicClasses (linked p).table (keptClasses p) = [])
    {e : InterfaceDecl} (he : e ∈ keptInterfaces p) :
    (acyclic p).table.find? e.name = some (.bare e.name .interface) := by
  have hother : e.name ∉ (keptClasses p).map ClassDecl.name := by
    intro hmem
    obtain ⟨d, hd, heq⟩ := List.mem_map.1 hmem
    exact class_ne_interface hd he heq.symm
  rw [find?_acyclic_eq h, (round_linked p).others _ hother, find?_interface he]

/-- A class has its declared supertypes, and no members before they are added. -/
theorem find?_headingOf (h : Collected.cyclicClasses (linked p).table (keptClasses p) = [])
    {d : ClassDecl} (hd : d ∈ keptClasses p)
    (hsuperclass : supertypeFaults (registration p).1.table .class_ d.position d.superclass = [])
    (hinterface : supertypeFaults (registration p).1.table .interface d.position d.interface = []) :
    (withInterfaces p).table.find? d.name = some (.headingOf d) := by
  have hother : d.name ∉ (keptInterfaces p).map InterfaceDecl.name := by
    intro hmem
    obtain ⟨e, he, heq⟩ := List.mem_map.1 hmem
    exact class_ne_interface hd he heq
  rw [(round_interfaces p).others _ hother, find?_acyclic_eq h, find?_linked hd,
    if_pos hsuperclass, if_pos hinterface]
  rfl

section Faultless

variable (h : (collect p).faults.toList = [])

include h

theorem registration_faultless : (registration p).1.faults.toList = [] :=
  (faultless_stages h).2.2.2

/-- Nothing is wrong with the supertypes of a class. -/
theorem supertypeFaults_eq_nil {d : ClassDecl} (hd : d ∈ keptClasses p) :
    supertypeFaults (registration p).1.table .class_ d.position d.superclass = [] ∧
      supertypeFaults (registration p).1.table .interface d.position d.interface = [] := by
  obtain ⟨-, hlinked, -, hregistered⟩ := faultless_stages h
  have hstep := (round_linked p).faultless (hlinked.trans hregistered.symm) hd
  rw [Collected.linkSupertypes_eq] at hstep
  exact List.append_eq_nil_iff.1 ((faults_reportAll _ _).1 hstep)

theorem find?_heading {d : ClassDecl} (hd : d ∈ keptClasses p) :
    (withInterfaces p).table.find? d.name = some (.headingOf d) := by
  obtain ⟨hsuperclass, hinterface⟩ := supertypeFaults_eq_nil h hd
  exact find?_headingOf (faultless_stages h).2.2.1 hd hsuperclass hinterface

theorem find?_ofInterface {e : InterfaceDecl} (he : e ∈ keptInterfaces p) :
    (withInterfaces p).table.find? e.name = some (.ofInterface e) := by
  obtain ⟨hinterfaces, hlinked, hcycles, -⟩ := faultless_stages h
  have hbare := find?_bareInterface hcycles he
  have hacyclic : (acyclic p).faults.toList = [] := by
    rw [acyclic, Collected.faults_cutCycles, hcycles, hlinked]
    rfl
  have hstep := (round_interfaces p).faultless (hinterfaces.trans hacyclic.symm) he
  rw [(round_interfaces p).own e he]
  exact (quiet_collectInterface hbare).2 hstep

/-- Nothing is wrong with the members of a class, and it has the methods of its interface. -/
theorem quiet_classStep {d : ClassDecl} (hd : d ∈ keptClasses p) :
    MembersObey (withInterfaces p).table d ∧
      missingFaults ((withInterfaces p).collectClass d).table d = [] := by
  have hstep := (round_classes p).faultless (h.trans (faultless_stages h).1.symm) hd
  obtain ⟨hcollect, hcheck⟩ := (appends_collectClass d).split (appends_checkInterface d) hstep
  rw [Collected.checkInterface_eq, faults_reportAll] at hcheck
  exact ⟨(quiet_collectClass (find?_heading h hd)).1.1 hcollect, hcheck⟩

/-- A class is in the table as it is declared. -/
theorem find?_ofClass {d : ClassDecl} (hd : d ∈ keptClasses p) :
    (collect p).table.find? d.name = some (.ofClass d) := by
  rw [(round_classes p).own d hd, Collected.table_checkInterface]
  exact (quiet_collectClass (find?_heading h hd)).2 (quiet_classStep h hd).1

/-- A class declares the methods of its interface. -/
theorem contains_ofClass {d : ClassDecl} (hd : d ∈ keptClasses p) {e : InterfaceDecl}
    (he : e ∈ keptInterfaces p) (hinterface : d.interface = some e.name) :
    ∀ s ∈ e.methods, (TypeInfo.ofClass d).methods.contains s.text = true := by
  intro s hs
  obtain ⟨hobey, hcheck⟩ := quiet_classStep h hd
  have hown := (quiet_collectClass (find?_heading h hd)).2 hobey
  have hfind : ((withInterfaces p).collectClass d).table.find? e.name = some (.ofInterface e) := by
    rw [(@local_collectClass .outline (fun _ => none) d (fun _ _ _ => rfl)
      fun _ _ _ => rfl).frame _ _ (class_ne_interface hd he)]
    exact find?_ofInterface h he
  simp only [missingFaults, hown, interface_ofClass, hinterface, Option.bind_some, hfind,
    List.map_eq_nil_iff, List.filter_eq_nil_iff] at hcheck
  have hkey : s.text ∈ (TypeInfo.ofInterface e).methods.keys := by
    rcases find?_putMethods (.bare e.name .interface) e.methods s.text with
      ⟨-, hnone⟩ | ⟨s', -, -, hput⟩
    · exact (hnone s hs rfl).elim
    · exact Dictionary.mem_keys hput
  simpa using hcheck _ hkey

/-- The table of a program without faults. -/
theorem declares_collect : Declares p (collect p).table := by
  have hr := registration_faultless h
  have hkept := kept_eq hr
  refine ⟨nodup_names hr, ?_, ?_, ?_, ?_, ?_⟩
  · intro d hd
    cases d with
    | class_ d => exact find?_ofClass h ((mem_keptClasses hr).2 hd)
    | interface e =>
      have he := (mem_keptInterfaces hr).2 hd
      have hother : e.name ∉ (keptClasses p).map ClassDecl.name := by
        intro hmem
        obtain ⟨d, hd, heq⟩ := List.mem_map.1 hmem
        exact class_ne_interface hd he heq.symm
      exact ((round_classes p).others _ hother).trans (find?_ofInterface h he)
  · intro name hname
    have hclasses : name ∉ (keptClasses p).map ClassDecl.name :=
      fun hmem => hname (hkept ▸ (sublist_classNames _).subset hmem)
    have hinterfaces : name ∉ (keptInterfaces p).map InterfaceDecl.name :=
      fun hmem => hname (hkept ▸ (sublist_interfaceNames _).subset hmem)
    rw [(round_classes p).others _ hclasses, (round_interfaces p).others _ hinterfaces,
      find?_acyclic_eq (faultless_stages h).2.2.1, (round_linked p).others _ hclasses,
      (recorded_registration p).others _ (hkept ▸ hname)]
  · exact fun d hd => (quiet_classStep h ((mem_keptClasses hr).2 hd)).1.keys
  · intro d hd s hs
    have hfaults := (supertypeFaults_eq_nil h ((mem_keptClasses hr).2 hd)).1
    exact exists_class_iff.1 ((supertypeFaults_registration hr .class_ nofun).1 hfaults s hs)
  · intro d hd i hi
    have hfaults := (supertypeFaults_eq_nil h ((mem_keptClasses hr).2 hd)).2
    obtain ⟨e, he, hname⟩ :=
      exists_interface_iff.1 ((supertypeFaults_registration hr .interface nofun).1 hfaults i hi)
    have hinterface : d.interface = some e.name := by
      rw [hname]
      exact hi
    exact ⟨e, he, hname, contains_ofClass h ((mem_keptClasses hr).2 hd)
      ((mem_keptInterfaces hr).2 he) hinterface⟩

end Faultless

end Program

end Types

end Javelet
